import Xpir.NFLFV.ImportedSlots
import Xpir.NFLLWE.Retrieval

/-!
# Retrieval with the FV cryptosystem

The operations of an object are given to the reply generation and to the extraction, which
need no more than that they select (`selecting`). The noise of a block is at most that of its
queries times the number and the size of the coefficients, and the lowest bits of the slots
at the coordinate of the client are decrypted as long as this leaves room in `q`.

The chunks that the client extracts are then those of the chosen element, with a mask on each
slot if the object has masks (`retrievesChunks_retrievedBytes`).
-/

namespace Xpir.Nfl

open PIRReplyExtraction

namespace FVobject

/-- Coins with which the noise of an encryption has some bound. -/
structure BoundedCoins {object : FVobject} (keys : object.fv.Keys) (noise : ℕ) where
  coins : FV.Coins
  noise_le : ∀ i < object.fv.degree, |FV.freshNoise keys coins i| ≤ noise

section Model

variable (object : FVobject)

/-- The ciphertexts of a level, as the import sees them. -/
def ciphertextShape (count : ℕ) : SplitShape :=
  object.bitsplit.ciphertexts count absorptionBits_pos

/-- The loops of an import end with this fuel if their counters suffice. -/
def importFuel (shape : SplitShape) : ℕ :=
  2 * shape.bitsPerBuffer + 66 + PolyShape.totalNbChunks shape + object.bitsplit.polyNumber shape

/-- The polynomials made of some buffers. -/
def importPolys (shape : SplitShape) (buffers : ℕ → ℤ → UInt8) (first_ i : ℕ) : object.poly :=
  object.fv.transformtopolyp fun index =>
    (object.deserializeDataNFL (object.importFuel shape) shape buffers first_).getD (fun _ => 0)
      (i * object.polyWords + index)

/-- The operations that the server uses. Ciphertexts are imported without a mask. -/
def cryptosystem : LatticesBasedCryptosystem object.poly object.Cipher where
  zero := (0, 0)
  mulandadd := mulandadd
  sub := sub
  deserializeDataNFL ciphers count := object.importPolys (object.ciphertextShape count)
    (fun bufferIndex pointer => cipherBytes (ciphers bufferIndex) pointer.toNat) 0
  absorptionBitsize := object.fv.degree * NFLFV.absorptionBits
  ciphertextBitsize := object.bitsplit.getCiphertextBitsize

/-- The words of the polynomial that is encrypted for a number. -/
def uintWords (ui index : ℕ) : ℕ :=
  if index % object.fv.degree = 0 ∧ index < object.polyWords then ui else 0

/-- The ciphertext of a coordinate, which is the same at all levels. -/
def encryptElement {object : FVobject} {keys : object.fv.Keys} {noise : ℕ}
    (coins : BoundedCoins keys noise) (ui _recLvl : ℕ) : object.Cipher :=
  let bits := object.fv.degree * NFLFV.absorptionBits
  let ui := if bits ≤ Nat.clog 2 ui then ui % 2 ^ bits else ui
  enc keys coins.coins (object.uintWords ui)

/-- The noise of the replies to queries of some length leaves room for the messages. -/
def LeavesBudget (noise eltNbr : ℕ) : Prop :=
  object.fv.t * (eltNbr * (object.fv.degree * (noise * (object.fv.t - 1)))) +
    (object.fv.t - 1) * (object.fv.t - 1) < object.fv.q / 2

/-- The lowest bits of the slots of a polynomial are those of some bytes. -/
def Represents (p : object.poly) (bytes : ℕ → UInt8) : Prop :=
  ∃ slots, object.fv.Carries p slots ∧ littleEndian bytes object.absorbedBytes =
    object.packed fun i => (slots object.fv.first i).val

end Model

section Sizes

variable (object : FVobject)

theorem cryptosystem_hasSizes :
    object.cryptosystem.publicParams.HasSizes object.bitsplit NFLFV.absorptionBits where
  degree := pow_dvd_pow 2 object.levels_ge
  abs_pos := absorptionBits_pos
  abs_lt := by
    have single : NFLFV.absorptionBits < 1 * NFLlib.kModulusBitsize := by decide
    exact single.trans_le (Nat.mul_le_mul_right _ object.moduli_pos)
  absorption := rfl
  ciphertext := rfl

/-- The size of a ciphertext is that of its words. -/
theorem ciphertextBytesize_eq :
    object.cryptosystem.publicParams.ciphertextBytesize = 8 * (2 * object.polyWords) := by
  have moduli_pos := object.moduli_pos
  have moduli_le := object.moduli_le
  have words : object.bitsplit.nbModuli * NFLlib.kModulusBitsize ⌈/⌉ 64 =
      object.fv.poly_p.nmoduli := by
    change object.fv.poly_p.nmoduli * NFLlib.kModulusBitsize ⌈/⌉ 64 = object.fv.poly_p.nmoduli
    rw [Nat.ceilDiv_eq_add_pred_div, NFLlib.kModulusBitsize]
    omega
  have size_eq := object.bitsplit.getCiphertextBitsize_eq
  rw [words] at size_eq
  change object.bitsplit.getCiphertextBitsize / 8 = _
  rw [size_eq]
  change 128 * object.polyWords / 8 = _
  omega

theorem polyNumber_eq {shape : SplitShape} (bits_eq : shape.bitsPerChunk = NFLFV.absorptionBits)
    {total : ℕ} (total_eq : PolyShape.totalBits shape = 8 * total) :
    object.bitsplit.polyNumber shape = total ⌈/⌉ object.absorbedBytes := by
  have absorbed_pos : 0 < object.absorbedBytes :=
    object.cryptosystem_hasSizes.bounds.absorption_pos
  have divisor : shape.bitsPerChunk * object.bitsplit.polyDegree = 8 * object.absorbedBytes := by
    rw [eight_mul_absorbedBytes, bits_eq, mul_comm]
    rfl
  rw [PolyShape.polyNumber, total_eq, divisor, mul_ceilDiv_mul (by decide : 0 < 8) absorbed_pos]

/-- The polynomials of a level are those of the ciphertexts of the level before. -/
theorem polyNumber_ciphertextShape (bytes level : ℕ) :
    object.bitsplit.polyNumber (object.ciphertextShape
        (object.cryptosystem.publicParams.plaintexts bytes level)) =
      object.cryptosystem.publicParams.plaintexts bytes (level + 1) := by
  have bits_eq : object.cryptosystem.publicParams.ciphertextBitsize =
      8 * object.cryptosystem.publicParams.ciphertextBytesize :=
    object.cryptosystem_hasSizes.bounds.ciphertext_eq
  refine object.polyNumber_eq rfl ?_
  rw [PolyShape.totalBits, ciphertextShape, PolyShape.ciphertexts_bitsPerBuffer, Nat.mul_left_comm,
    ← bits_eq]
  rfl

end Sizes

section Blocks

variable {object : FVobject} {keys : object.fv.Keys} {noise eltNbr : ℕ}
  {pirParams : PIRParameters} {chosenElement level : ℕ}

theorem transformtopolyp_uintWords (ui : ℕ) (cm : Fin object.fv.poly_p.nmoduli) {i : ℕ}
    (i_lt : i < object.fv.degree) : object.fv.transformtopolyp (object.uintWords ui) cm i =
      ((if i = 0 then ui else 0 : ℤ) : ZMod (object.fv.poly_p.params cm).p) := by
  have remainder : (cm * object.fv.degree + i) % object.fv.degree = i := by
    rw [mul_comm, Nat.mul_add_mod, Nat.mod_eq_of_lt i_lt]
  have inside : cm * object.fv.degree + i < object.polyWords := rowPosition_lt cm i_lt
  change ((object.uintWords ui (cm * object.fv.degree + i) : ℕ) :
    ZMod (object.fv.poly_p.params cm).p) = _
  rw [uintWords, remainder]
  by_cases first : i = 0
  · rw [if_pos ⟨first, inside⟩, if_pos first, Int.cast_natCast]
  · rw [if_neg fun both => first both.1, if_neg first, Nat.cast_zero, Int.cast_zero]

/-- A bit is encrypted as a constant. -/
theorem holds_encryptElement (coins : BoundedCoins keys noise) {ui : ℕ} (bit : ui ≤ 1)
    (recLvl : ℕ) : FV.Holds keys (transformtoFV_cipher (encryptElement coins ui recLvl))
      fun i => object.fv.q / object.fv.t * (if i = 0 then ui else 0 : ℤ) +
        FV.freshNoise keys coins.coins i := by
  have bits_pos : 0 < object.fv.degree * NFLFV.absorptionBits :=
    Nat.mul_pos PolyType.degree_pos absorptionBits_pos
  have uncut : ¬ object.fv.degree * NFLFV.absorptionBits ≤ Nat.clog 2 ui := by
    rw [Nat.clog_of_right_le_one bit 2]
    omega
  simp only [encryptElement, if_neg uncut]
  exact FV.holds_encrypt_poly keys coins.coins
    fun cm i i_lt => transformtopolyp_uintWords ui cm i_lt

/-- What the server absorbs is a sum of products. -/
theorem absorbed_eq_sumOfProducts (size : ℕ) (data : ℕ → object.poly)
    (query : ℕ → object.Cipher) :
    transformtoFV_cipher (object.cryptosystem.absorbed size data query none) =
      FV.sumOfProducts data (fun k => transformtoFV_cipher (query k)) size := by
  rw [LatticesBasedCryptosystem.absorbed, LatticesBasedCryptosystem.absorbRange, FV.sumOfProducts]
  simp only [Nat.zero_add]
  exact forLoop_project transformtoFV_cipher (fun _ _ _ => rfl) _

theorem negacyclicMul_constant_left {size : ℕ} (constant : ℤ) (values : ℕ → ℤ) {cell : ℕ}
    (cell_lt : cell < size) :
    negacyclicMul size (fun index => if index = 0 then constant else 0) values cell =
      constant * values cell := by
  rw [negacyclicMul, Finset.sum_eq_single_of_mem 0 (Finset.mem_range.mpr (by omega))]
  · simp
  · intro index _ distinct
    rw [if_neg distinct, zero_mul]

/-- Bits of which one is set select one of the products. -/
theorem productSum_selected {size count selected : ℕ} (selected_lt : selected < count)
    (data : ℕ → ℕ → ℤ) {i : ℕ} (i_lt : i < size) :
    FV.productSum size count
      (fun k i => if i = 0 then ((if k = selected then 1 else 0 : ℕ) : ℤ) else 0) data i =
        data selected i := by
  rw [FV.productSum, Finset.sum_eq_single_of_mem selected (Finset.mem_range.mpr selected_lt),
    negacyclicMul_constant_left _ _ i_lt, if_pos rfl, Nat.cast_one, one_mul]
  intro k _ other
  rw [negacyclicMul_constant_left _ _ i_lt, if_neg other, Nat.cast_zero, zero_mul]

theorem abs_le_of_range {m : ℤ} (range : 0 ≤ m ∧ m < object.fv.t) :
    |m| ≤ ((object.fv.t - 1 : ℕ) : ℤ) := by
  rw [abs_of_nonneg range.1]
  omega

/-- An absorbed block holds the message of the chosen polynomial, with the noise of all queries. -/
theorem exists_block (coins : ℕ → ℕ → BoundedCoins keys noise) (n_le : pirParams.n level ≤ eltNbr)
    (level_lt : level < pirParams.d) {data : ℕ → object.poly} {slots : ℕ → object.fv.polyP_p.poly}
    (carries : ∀ k < pirParams.n level, object.fv.Carries (data k) (slots k)) :
    ∃ m e : ℕ → ℤ,
      FV.Holds keys (transformtoFV_cipher (object.cryptosystem.absorbed (pirParams.n level) data
        (pirParams.queryElement encryptElement coins chosenElement level) none))
          (fun i => object.fv.q / object.fv.t * m i + e i) ∧
      (∀ i < object.fv.degree, 0 ≤ m i ∧ m i < object.fv.t) ∧
      (∀ i < object.fv.degree, |e i| ≤
        ((eltNbr * (object.fv.degree * (noise * (object.fv.t - 1))) : ℕ) : ℤ)) ∧
      object.fv.polyP_p.Transforms
        (slots (pirParams.computeCoordinates chosenElement level)) m := by
  have coordinate_lt := pirParams.computeCoordinates_lt chosenElement level_lt
  choose! m transforms range values using carries
  let bit (k i : ℕ) : ℤ :=
    if i = 0 then ((if k = pirParams.computeCoordinates chosenElement level then 1 else 0 : ℕ) : ℤ)
    else 0
  let e (k : ℕ) : ℕ → ℤ := FV.freshNoise keys (coins level k).coins
  have queries : ∀ k < pirParams.n level, FV.Holds keys (transformtoFV_cipher
      (pirParams.queryElement encryptElement coins chosenElement level k))
        fun i => object.fv.q / object.fv.t * bit k i + e k i := by
    intro k _
    rw [PIRParameters.queryElement]
    split
    next same =>
      refine (holds_encryptElement (coins level k) le_rfl _).congr ?_
      intro i _
      simp only [bit, if_pos same]
      rfl
    next other =>
      refine (holds_encryptElement (coins level k) (Nat.zero_le 1) _).congr ?_
      intro i _
      simp only [bit, if_neg other]
      rfl
  have holds := (FV.holds_sumOfProducts (fun _ _ => rfl) queries transforms).2
  rw [← absorbed_eq_sumOfProducts] at holds
  refine ⟨_, _, holds.congr (w := fun i => object.fv.q / object.fv.t *
    m (pirParams.computeCoordinates chosenElement level) i + FV.productSum object.fv.degree
      (pirParams.n level) e m i) ?_, range _ coordinate_lt, ?_, values _ coordinate_lt⟩
  · intro i i_lt
    rw [productSum_selected coordinate_lt m i_lt]
  · intro i i_lt
    have sum_le := FV.abs_productSum_le (fun k _ i i_lt => (coins level k).noise_le i i_lt)
      (fun k k_lt i i_lt => abs_le_of_range (range k k_lt i i_lt)) i_lt
    refine sum_le.trans ?_
    have wider := Nat.mul_le_mul_right
      (object.fv.degree * (noise * (object.fv.t - 1))) n_le
    exact_mod_cast wider

end Blocks

section Bytes

variable {object : FVobject}

theorem packed_congr {slots others : ℕ → ℕ} (same : ∀ i < object.fv.degree, slots i = others i) :
    object.packed slots = object.packed others := by
  apply concatenate_congr
  intro i i_lt
  rw [same i i_lt]

theorem packed_lt (slots : ℕ → ℕ) : object.packed slots < 2 ^ (8 * object.absorbedBytes) := by
  rw [eight_mul_absorbedBytes, mul_comm]
  exact concatenate_lt (fun i => Nat.mod_lt _ (Nat.two_pow_pos _)) _

theorem bytesSlots_lt (bytes : ℕ → UInt8) (i : ℕ) : object.bytesSlots bytes i < object.fv.t :=
  (bitSlice_lt _ _ _).trans_le object.plain_ge

/-- The slots that some bytes are cut into hold these bytes. -/
theorem packed_bytesSlots (bytes : ℕ → UInt8) :
    object.packed (object.bytesSlots bytes) = littleEndian bytes object.absorbedBytes := by
  have value_lt := littleEndian_lt bytes object.absorbedBytes
  rw [eight_mul_absorbedBytes, mul_comm] at value_lt
  rw [packed, ← Nat.mod_eq_of_lt value_lt, ← concatenate_bitSlice absorptionBits_pos]
  apply concatenate_congr
  intro i _
  rw [bytesSlots, mul_comm i, Nat.mod_eq_of_lt (bitSlice_lt _ _ _)]

theorem set_bytesSlots_val (bytes : ℕ → UInt8) (i : ℕ) :
    (object.fv.polyP_p.set (object.bytesSlots bytes) object.fv.first i).val =
      object.bytesSlots bytes i :=
  (ZMod.val_natCast (n := object.fv.t) _).trans (Nat.mod_eq_of_lt (bytesSlots_lt bytes i))

/-- A number is stored by its slices of eight bits. -/
theorem littleEndian_bitSlices {value count : ℕ} (value_lt : value < 2 ^ (8 * count)) :
    littleEndian (fun byte => UInt8.ofNat (bitSlice value (8 * byte) 8)) count = value := by
  have bytes : ∀ k < count,
      (UInt8.ofNat (bitSlice value (8 * k) 8)).toNat = bitSlice value (8 * k) 8 := by
    intro k _
    rw [UInt8.toNat_ofNat']
    exact Nat.mod_eq_of_lt (bitSlice_lt _ _ _)
  rw [littleEndian, concatenate_congr bytes, concatenate_bitSlice (by decide),
    Nat.mod_eq_of_lt value_lt]

/-- The bytes that come back from a chunk: each slot is multiplied with its mask. -/
def retrievedBytes (object : FVobject) (bytes : ℕ → UInt8) : ℕ → UInt8 :=
  match object.masks with
  | some masks => fun byte => UInt8.ofNat (bitSlice
      (object.packed fun i => object.bytesSlots bytes i * masks.mask2 i % object.fv.t)
      (8 * byte) 8)
  | none => bytes

/-- The database is imported with the masks. -/
theorem littleEndian_retrievedBytes (bytes : ℕ → UInt8) :
    littleEndian (object.retrievedBytes bytes) object.absorbedBytes = object.packed fun i =>
      (maskSlots 1 (object.fv.polyP_p.set (object.bytesSlots bytes)) object.fv.first i).val := by
  have positive : NeZero object.fv.t := FV.p_neZero
  cases masks_eq : object.masks with
  | some masks =>
      have product : ∀ i < object.fv.degree,
          (maskSlots 1 (object.fv.polyP_p.set (object.bytesSlots bytes))
            object.fv.first i).val = object.bytesSlots bytes i * masks.mask2 i % object.fv.t := by
        intro i _
        have mask_eq : object.fv.transformtopolyPp masks.mask2 object.fv.first i =
            ((masks.mask2 i : ℕ) : ZMod object.fv.t) := by
          change ((masks.mask2 (0 * object.fv.degree + i) : ℕ) : ZMod object.fv.t) = _
          rw [Nat.zero_mul, Nat.zero_add]
        have slot_eq : maskSlots 1 (object.fv.polyP_p.set (object.bytesSlots bytes))
            object.fv.first i =
              ((object.bytesSlots bytes i * masks.mask2 i : ℕ) : ZMod object.fv.t) := by
          simp only [maskSlots, masks_eq, if_pos]
          rw [Pi.mul_apply, Pi.mul_apply, mask_eq, Nat.cast_mul]
          rfl
        rw [slot_eq]
        exact ZMod.val_natCast (n := object.fv.t) _
      rw [packed_congr product]
      simp only [retrievedBytes, masks_eq]
      exact littleEndian_bitSlices (packed_lt _)
  | none =>
      simp only [retrievedBytes, maskSlots, masks_eq]
      rw [packed_congr fun i _ => set_bytesSlots_val bytes i, packed_bytesSlots]

end Bytes

section Selecting

variable {object : FVobject} {keys : object.fv.Keys} {noise eltNbr : ℕ} {pirParams : PIRParameters}

/-- Each polynomial made of some buffers carries the slots of its own bytes. -/
theorem importPolys_carries {shape : SplitShape}
    (bits_eq : shape.bitsPerChunk = NFLFV.absorptionBits)
    (fits : object.bitsplit.CountersFit shape)
    (few : object.bitsplit.polyNumber shape < 2 ^ 32) (buffers : ℕ → ℤ → UInt8) (first_ : ℕ) :
    ∀ i < object.bitsplit.polyNumber shape, object.fv.Carries
      (object.importPolys shape buffers first_ i) (maskSlots first_ (object.fv.polyP_p.set
        (object.bytesSlots (object.importedBytes shape buffers i)))) := by
  rcases @deserializeDataNFL_carries object shape buffers bits_eq fits few
    (object.importFuel shape) (by rw [importFuel]; omega) first_ with ⟨deserData, runs, carries⟩
  intro i i_lt
  have imported := carries i i_lt
  rw [importPolys, runs]
  exact imported

/-- The counters of the imports of all levels suffice for their ciphertexts. -/
def LevelCountersFit (object : FVobject) (levels bytes : ℕ) : Prop :=
  ∀ level, level + 1 < levels → object.bitsplit.CountersFit
    (object.ciphertextShape (object.cryptosystem.publicParams.plaintexts bytes level))

/-- The cryptosystem selects, and keeps the bytes of its ciphertexts. -/
theorem selecting (budget : object.LeavesBudget noise eltNbr)
    (n_le : ∀ level < pirParams.d, pirParams.n level ≤ eltNbr) {bytes : ℕ}
    (few : object.cryptosystem.publicParams.plaintexts bytes (pirParams.d - 1) < 2 ^ 32)
    (fits : object.LevelCountersFit pirParams.d bytes) :
    Selecting pirParams object.cryptosystem (@encryptElement object keys noise)
      object.Represents (fun _ _ _ => True) cipherBytes (decryptBytes keys)
      (object.cryptosystem.publicParams.plaintexts bytes 0) where
  selects := by
    intro level level_lt coins chosenElement data plain represents _ cipher stored i i_lt
    choose! slots carries contents using represents
    rcases exists_block coins (n_le level level_lt) level_lt carries with
      ⟨m, e, holds, range, noise_le, values⟩
    have noise_lt : ∀ i < object.fv.degree, |object.fv.noiseAt m e i| < (object.fv.q : ℤ) / 2 :=
      fun i i_lt => FV.abs_noiseAt_lt budget (abs_le_of_range (range i i_lt)) (noise_le i i_lt)
    rw [ciphertextBytesize_eq] at stored
    have decrypted := decryptBytes_eq holds noise_lt values stored (level + 1)
    rw [← contents _ (pirParams.computeCoordinates_lt chosenElement level_lt)] at decrypted
    exact eq_of_littleEndian_eq decrypted i_lt
  reimports := by
    intro level level_lt ciphers
    have bounds := object.cryptosystem_hasSizes.bounds
    have level_small : ∀ lower ≤ pirParams.d - 1,
        object.cryptosystem.publicParams.plaintexts bytes lower < 2 ^ 32 :=
      fun lower lower_le => (bounds.plaintexts_mono _ lower_le).trans_lt few
    have polys := LatticesBasedCryptosystem.levelPolys_eq_plaintexts rfl bounds
      (level_small level (by omega))
    have next := LatticesBasedCryptosystem.levelPolys_eq_plaintexts rfl bounds
      (level_small (level + 1) (by omega))
    have number := object.polyNumber_ciphertextShape bytes level
    have small := level_small (level + 1) (by omega)
    rw [polys, next]
    let buffers (bufferIndex : ℕ) (pointer : ℤ) : UInt8 :=
      cipherBytes (ciphers bufferIndex) pointer.toNat
    have carries := importPolys_carries rfl (fits level level_lt) (by rw [number]; omega) buffers 0
    rw [number] at carries
    refine ⟨object.importedBytes (object.ciphertextShape
      (object.cryptosystem.publicParams.plaintexts bytes level)) buffers, ?_, ?_⟩
    · intro poly poly_lt
      refine ⟨_, carries poly poly_lt, ?_⟩
      have unmasked : ∀ Pp : object.fv.polyP_p.poly, maskSlots 0 Pp = Pp := by
        intro Pp
        rw [maskSlots]
        split <;> rfl
      rw [unmasked, packed_congr fun i _ => set_bytesSlots_val _ i, packed_bytesSlots]
    · intro position position_lt
      change object.importedBytes _ buffers (position / object.absorbedBytes)
        (position % object.absorbedBytes) = _
      rw [importedBytes, Nat.div_add_mod']
      exact if_pos position_lt

end Selecting

section Retrieval

variable (object : FVobject)

/-- The buffer of an aggregated element. -/
def elementShape {bytes : ℕ} (bytes_lt : 8 * bytes < 2 ^ 64) : SplitShape :=
  Xpir.elementShape bytes NFLFV.absorptionBits ⟨absorptionBits_pos, bytes_lt⟩

/-- An element of the database: the polynomials that are made from a buffer, with the mask. -/
def deserializeElement {bytes : ℕ} (bytes_lt : 8 * bytes < 2 ^ 64) (rawBits : ℕ → UInt8) :
    ℕ → object.poly :=
  object.importPolys (elementShape bytes_lt) (fun _ pointer => rawBits pointer.toNat) 1

/-- All counters and offsets are right for elements of a size. -/
structure SizesFit (pirParams : PIRParameters) (bytes : ℕ) : Prop where
  bytes_pos : 0 < bytes
  few : object.cryptosystem.publicParams.plaintexts bytes (pirParams.d - 1) < 2 ^ 32
  rounds : LatticesBasedCryptosystem.RoundsFit pirParams
  keeps : object.cryptosystem.publicParams.KeepsChunks pirParams.d bytes
  offsets : OffsetsFit object.cryptosystem.publicParams pirParams.d bytes
  counters : object.LevelCountersFit pirParams.d bytes
  imports : ∀ bytes_lt : 8 * bytes < 2 ^ 64,
    object.bitsplit.CountersFit (elementShape bytes_lt)

variable {object} {keys : object.fv.Keys} {noise eltNbr bytes : ℕ} {pirParams : PIRParameters}

theorem importedBytes_elementShape (bytes_lt : 8 * bytes < 2 ^ 64) (memory : ℕ → UInt8)
    (chunk : ℕ) :
    object.importedBytes (elementShape bytes_lt) (fun _ pointer => memory pointer.toNat) chunk =
      NFLLWE.paddedChunks object.absorbedBytes bytes memory chunk := by
  funext i
  have single : (elementShape bytes_lt).nbrOfBuffers * (elementShape bytes_lt).bytesPerBuffer =
      bytes := Nat.one_mul bytes
  rw [importedBytes, NFLLWE.paddedChunks]
  simp only [single]
  split
  next inside =>
    change memory ((chunk * object.absorbedBytes + i) % bytes : ℕ) = _
    rw [Nat.mod_eq_of_lt inside]
  next => rfl

/-- The polynomials of an element carry the slots of its chunks, multiplied with the mask. -/
theorem SizesFit.carries (fits : object.SizesFit pirParams bytes) (bytes_lt : 8 * bytes < 2 ^ 64)
    (rawBits : ℕ → UInt8) {poly : ℕ}
    (poly_lt : poly < object.cryptosystem.publicParams.plaintexts bytes 0) :
    object.fv.Carries (object.deserializeElement bytes_lt rawBits poly)
      (maskSlots 1 (object.fv.polyP_p.set (object.bytesSlots
        (NFLLWE.paddedChunks object.absorbedBytes bytes rawBits poly)))) := by
  have total : PolyShape.totalBits (elementShape bytes_lt) = 8 * bytes := Nat.one_mul _
  have number : object.bitsplit.polyNumber (elementShape bytes_lt) =
      object.cryptosystem.publicParams.plaintexts bytes 0 := by
    rw [object.polyNumber_eq rfl total, PublicParameters.plaintexts_zero]
    rfl
  have few := (object.cryptosystem_hasSizes.bounds.plaintexts_mono bytes
    (Nat.zero_le (pirParams.d - 1))).trans_lt fits.few
  have carries := importPolys_carries rfl (fits.imports bytes_lt) (by rw [number]; omega)
    (fun _ pointer => rawBits pointer.toNat) 1 poly (by rw [number]; exact poly_lt)
  rw [importedBytes_elementShape] at carries
  exact carries

/--
The client extracts the chunks of the element that it has chosen. Without masks these are
the bytes of the element; otherwise each slot has been multiplied with its mask.
-/
theorem retrievesChunks_retrievedBytes (budget : object.LeavesBudget noise eltNbr)
    (n_le : ∀ level < pirParams.d, pirParams.n level ≤ eltNbr)
    (fits : object.SizesFit pirParams bytes) (bytes_lt : 8 * bytes < 2 ^ 64)
    (coins : ℕ → ℕ → BoundedCoins keys noise) {chosenElement : ℕ}
    (inside : chosenElement < pirParams.nbElements 0) (database : ℕ → ℕ → UInt8)
    (initial : ℕ → ℕ → object.Cipher) :
    RetrievesChunks pirParams object.cryptosystem cipherBytes (decryptBytes keys)
      ((pirParams.generateQuery encryptElement coins chosenElement).foldl pirParams.pushQuery
        ⟨initial, 0, 0⟩).queriesBuf
      (fun element => object.deserializeElement bytes_lt (database element))
      (object.cryptosystem.publicParams.plaintexts bytes 0) none (toInt bytes)
      (fun chunk => object.retrievedBytes
        (NFLLWE.paddedChunks object.absorbedBytes bytes (database chosenElement) chunk)) := by
  let plain (element chunk : ℕ) : ℕ → UInt8 := object.retrievedBytes
    (NFLLWE.paddedChunks object.absorbedBytes bytes (database element) chunk)
  have imported : ∀ element < pirParams.nbElements 0,
      ∀ poly < object.cryptosystem.publicParams.plaintexts bytes 0,
        object.Represents (object.deserializeElement bytes_lt (database element) poly)
          (plain element poly) :=
    fun element _ poly poly_lt =>
      ⟨_, fits.carries bytes_lt (database element) poly_lt, littleEndian_retrievedBytes _⟩
  exact (selecting budget n_le fits.few fits.counters).retrieves rfl
    object.cryptosystem_hasSizes.bounds fits.bytes_pos fits.few fits.rounds fits.keeps
    fits.offsets (pirParams.received_generateQuery encryptElement coins chosenElement initial)
    inside imported (fun _ _ _ _ _ _ => trivial)

end Retrieval

section Small

variable {object : FVobject} {pirParams : PIRParameters}

/-- The counters of an import suffice for few polynomials. -/
theorem countersFit_of_lt {shape : SplitShape} (bits_eq : shape.bitsPerChunk = NFLFV.absorptionBits)
    {number : ℕ} (number_eq : object.bitsplit.polyNumber shape = number)
    (few : (number - 1) * object.cryptosystem.publicParams.absorptionBytesize < 2 ^ 24) :
    object.bitsplit.CountersFit shape := by
  have whole := eight_mul_absorbedBytes object
  have short : ¬ 1 < shape.intUint64PerChunk := by
    rw [SplitShape.intUint64PerChunk, bits_eq]
    decide
  have degree_le : object.fv.degree ≤ object.cryptosystem.publicParams.absorptionBytesize := by
    change object.fv.degree ≤ object.absorbedBytes
    rw [NFLFV.absorptionBits] at whole
    omega
  rw [PolyShape.CountersFit, if_neg short, number_eq]
  refine Or.inr ?_
  calc (number - 1) * (object.fv.degree * object.fv.poly_p.nmoduli)
      ≤ (number - 1) * (object.cryptosystem.publicParams.absorptionBytesize * 2) :=
        Nat.mul_le_mul_left _ (Nat.mul_le_mul degree_le object.moduli_le)
    _ = (number - 1) * object.cryptosystem.publicParams.absorptionBytesize * 2 :=
        (Nat.mul_assoc _ _ _).symm
    _ < 2 ^ 32 := by omega

/-- Elements fit if the bytes of every level have no more than 24 bits, so that none is rounded. -/
theorem sizesFit_of_lt (bytes_pos : 0 < bytes) (bytes_lt : bytes < 2 ^ 24)
    (rounds : LatticesBasedCryptosystem.RoundsFit pirParams)
    (small : ∀ level, level + 1 < pirParams.d →
      object.cryptosystem.publicParams.plaintexts bytes level *
        object.cryptosystem.publicParams.ciphertextBytesize < 2 ^ 24) :
    object.SizesFit pirParams bytes := by
  have bounds := object.cryptosystem_hasSizes.bounds
  have absorption_pos := bounds.absorption_pos
  have ciphertext_pos := absorption_pos.trans_le bounds.absorption_le
  have d_pos := pirParams.d_pos
  have full : ∀ level < pirParams.d,
      (object.cryptosystem.publicParams.plaintexts bytes level - 1) *
        object.cryptosystem.publicParams.absorptionBytesize < 2 ^ 24 := by
    intro level level_lt
    rw [Nat.sub_one_mul]
    cases level with
    | zero =>
        have := ceilDiv_mul_lt bytes absorption_pos
        rw [PublicParameters.plaintexts_zero, Nat.mul_comm]
        omega
    | succ level =>
        have := small level level_lt
        have := ceilDiv_mul_lt (object.cryptosystem.publicParams.plaintexts bytes level *
          object.cryptosystem.publicParams.ciphertextBytesize) absorption_pos
        rw [PublicParameters.plaintexts, Nat.mul_comm]
        omega
  refine ⟨bytes_pos, ?_, rounds, ⟨by omega, bounds.staysWithin_of_lt bytes_pos bytes_lt, ?_⟩,
    ?_, ?_, ?_⟩
  · have last := full (pirParams.d - 1) (by omega)
    have := Nat.le_mul_of_pos_right
      (object.cryptosystem.publicParams.plaintexts bytes (pirParams.d - 1) - 1) absorption_pos
    omega
  · intro level level_lt
    have size_lt := small level level_lt
    have number_pos := bounds.plaintexts_pos bytes_pos level
    have number_lt := (Nat.le_mul_of_pos_right _ ciphertext_pos).trans_lt size_lt
    rw [PublicParameters.roundedBytes_natCast number_lt]
    exact bounds.staysWithin_of_lt (Nat.mul_pos number_pos ciphertext_pos) size_lt
  · intro level level_lt _
    have := full level level_lt
    omega
  · intro level level_lt
    exact countersFit_of_lt rfl (object.polyNumber_ciphertextShape bytes level)
      (full (level + 1) level_lt)
  · intro bytes_lt
    exact countersFit_of_lt rfl (object.polyNumber_eq rfl (Nat.one_mul (8 * bytes)))
      (full 0 d_pos)

/-- Masks with different slots. -/
def slotMasks : Masks := ⟨fun i => i + 1, fun i => i % 255 + 1⟩

/-- Coins with small coefficients, for keys with such coefficients. -/
def smallBoundedCoins (masks : Masks) :
    BoundedCoins (FV.smallKeys (FV1024_62c masks).fv) 4099 where
  coins := FV.smallCoins
  noise_le := fun _ i_lt => FV.abs_freshNoise_small FV.FV1024_62 i_lt

theorem leavesBudget_small (masks : Masks) : (FV1024_62c masks).LeavesBudget 4099 2 := by
  change 12289 * (2 * (1024 * (4099 * (12289 - 1)))) + (12289 - 1) * (12289 - 1) <
    FV.FV1024_62.q / 2
  rw [FV.FV1024_62_q]
  decide

theorem sizes_pos : ∀ i < 2, 0 < (fun _ => 2 : ℕ → ℕ) i := by decide

theorem sizes_lt : ∀ i < 2, (fun _ => 2 : ℕ → ℕ) i < 2 ^ 32 := by decide

/-- Four elements in two dimensions. -/
def fourElements : PIRParameters where
  alpha := 1
  d := 2
  n := fun _ => 2
  alpha_pos := Nat.one_pos
  d_pos := Nat.two_pos
  n_pos := sizes_pos
  n_lt := sizes_lt

/-- An element of 2000 bytes takes two plaintexts, and their replies 22. -/
theorem sizesFit_fourElements (masks : Masks) :
    (FV1024_62c masks).SizesFit fourElements 2000 := by
  refine sizesFit_of_lt (by decide) (by decide) (fun _ _ => (by decide : 2 ≤ maxQuerySize)) ?_
  intro level level_lt
  obtain rfl : level = 0 := by
    change level + 1 < 2 at level_lt
    omega
  have absorption_eq : (FV1024_62c masks).cryptosystem.publicParams.absorptionBytesize = 1536 := by
    change 1024 * NFLFV.absorptionBits / 8 = 1536
    decide
  have words_eq : (FV1024_62c masks).polyWords = 1024 := Nat.one_mul 1024
  rw [ciphertextBytesize_eq, PublicParameters.plaintexts_zero, absorption_eq, words_eq]
  decide

/-- The third of four elements of 2000 bytes. -/
theorem retrievesChunks_retrievedBytes_fourElements :
    RetrievesChunks fourElements (FV1024_62c slotMasks).cryptosystem cipherBytes
      (decryptBytes (FV.smallKeys (FV1024_62c slotMasks).fv))
      ((fourElements.generateQuery encryptElement (fun _ _ => smallBoundedCoins slotMasks)
        2).foldl fourElements.pushQuery ⟨fun _ _ => (0, 0), 0, 0⟩).queriesBuf
      (fun element => (FV1024_62c slotMasks).deserializeElement (by decide : 8 * 2000 < 2 ^ 64)
        fun byte => UInt8.ofNat (element + byte))
      ((FV1024_62c slotMasks).cryptosystem.publicParams.plaintexts 2000 0) none (toInt 2000)
      (fun chunk => (FV1024_62c slotMasks).retrievedBytes (NFLLWE.paddedChunks
        (FV1024_62c slotMasks).absorbedBytes 2000 (fun byte => UInt8.ofNat (2 + byte)) chunk)) :=
  retrievesChunks_retrievedBytes (leavesBudget_small slotMasks) (fun _ _ => le_rfl)
    (sizesFit_fourElements slotMasks) (by decide) (fun _ _ => smallBoundedCoins slotMasks)
    (by decide) (fun element byte => UInt8.ofNat (element + byte)) (fun _ _ => (0, 0))

end Small

end FVobject

end Xpir.Nfl
