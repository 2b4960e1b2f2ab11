import Xpir.NFLFV.Retrieval

/-!
# Masked requests with the FV cryptosystem

The constructors of the classes with masks draw a mask, and write it to a file if the file is
still empty: to `mask2.txt` as it is, and to `mask.txt` as the polynomial with these slots.
Whatever is constructed later, both files are those of the first constructor
(`matching_of_read`).

The database is multiplied with the mask when it is imported. `generateReplyGenericFromData`
multiplies the request with the polynomial, so that the client decrypts the mask times the
difference in each slot (`retrievesChunks_differenceBytes`).
-/

namespace Xpir.Nfl

open PIRReplyExtraction

/-! ## The files of masks -/

/-- The words in `mask.txt` and `mask2.txt`, of which each may still be empty. -/
structure MaskFiles where
  mask : Option (ℕ → ℕ)
  mask2 : Option (ℕ → ℕ)

/-- What is done with a file by a constructor. -/
def writeIfEmpty (file : Option (ℕ → ℕ)) (word : ℕ → ℕ) : Option (ℕ → ℕ) :=
  match file with
  | some written => some written
  | none => some word

/-- What the constructors of the classes with masks leave in the files. -/
def FV.writeMasks (fv : FV) (files : MaskFiles) (rnd : ℕ → ℕ) : MaskFiles :=
  let mask := fv.encodeSlots (fv.transformtopolyPp (NFLFV.mask rnd))
  ⟨writeIfEmpty files.mask (fv.memoryWord mask), writeIfEmpty files.mask2 (NFLFV.mask rnd)⟩

def MaskFiles.read (files : MaskFiles) : Option Masks :=
  files.mask.bind fun mask => files.mask2.map fun mask2 => ⟨mask, mask2⟩

/-- The first file holds the polynomial with the slots in the second one. -/
def FV.Matching (fv : FV) (masks : Masks) : Prop :=
  masks.mask = fv.memoryWord (fv.encodeSlots (fv.transformtopolyPp masks.mask2))

section Files

variable {fv : FV}

/-- Later constructors do not change the files. -/
theorem foldl_writeMasks (mask mask2 : ℕ → ℕ) (draws : List (ℕ → ℕ)) :
    draws.foldl fv.writeMasks ⟨some mask, some mask2⟩ = ⟨some mask, some mask2⟩ := by
  induction draws with
  | nil => rfl
  | cons rnd draws ih => rw [List.foldl_cons]; exact ih

/-- After any number of constructors, both files are those of the first one. -/
theorem matching_of_read {draws : List (ℕ → ℕ)} {masks : Masks}
    (read : (draws.foldl fv.writeMasks ⟨none, none⟩).read = some masks) :
    fv.Matching masks := by
  cases draws with
  | nil => cases read
  | cons rnd draws =>
      rw [List.foldl_cons] at read
      change (draws.foldl fv.writeMasks ⟨some _, some _⟩).read = some masks at read
      rw [foldl_writeMasks] at read
      cases read
      rfl

end Files

namespace FVobject

/-! ## Requests -/

section Model

variable {object : FVobject} {keys : object.fv.Keys} {noise : ℕ}

/-- The request that is subtracted: encryptions of slots, multiplied with the mask. -/
def maskedRequest (coins : ℕ → BoundedCoins keys noise) (request : ℕ → ℕ → ℕ) (poly : ℕ) :
    object.Cipher :=
  mulrdm (encNTT keys (coins poly).coins (request poly))

/-- The bytes that are decrypted of a chunk less a request, both multiplied with the mask. -/
def differenceBytes (object : FVobject) (masks : Masks) (bytes : ℕ → UInt8) (request : ℕ → ℕ)
    (byte : ℕ) : UInt8 :=
  UInt8.ofNat (bitSlice (object.packed fun i => NFLFV.blindedSlot object.fv.t (masks.mask2 i)
    (object.bytesSlots bytes i) (request i)) (8 * byte) 8)

/-- The noise of the replies leaves room for a masked request. -/
def LeavesRequestBudget (object : FVobject) (noise eltNbr : ℕ) : Prop :=
  object.fv.t * ((eltNbr + 1) * (object.fv.degree * (noise * (object.fv.t - 1)))) +
    (object.fv.t - 1) * ((object.fv.t - 1) +
      object.fv.degree * ((object.fv.t - 1) * (object.fv.t - 1))) < object.fv.q / 2

end Model

section Requests

variable {object : FVobject} {keys : object.fv.Keys} {noise eltNbr : ℕ} {masks : Masks}

theorem LeavesRequestBudget.leavesBudget (budget : object.LeavesRequestBudget noise eltNbr) :
    object.LeavesBudget noise eltNbr := by
  apply lt_of_le_of_lt _ budget
  gcongr
  · exact Nat.le_succ _
  · exact Nat.le_add_right _ _

/-- The polynomial in the file stands for the mask. -/
theorem transforms_mask (matching : object.fv.Matching masks) :
    object.fv.poly_p.Transforms (object.fv.transformtopolyp masks.mask)
      (FV.slotCoefficients (object.fv.transformtopolyPp masks.mask2)) := by
  refine (FV.transforms_encodeSlots (object.fv.transformtopolyPp masks.mask2)).of_eq ?_
  intro cm cell cell_lt
  exact FV.transformtopolyp_eq (fun index _ => by rw [matching]) cm cell_lt

/-- Encrypting slots and multiplying with the mask multiplies message and noise. -/
theorem holds_maskedRequest (masks_eq : object.masks = some masks)
    (matching : object.fv.Matching masks) (coins : ℕ → BoundedCoins keys noise)
    (request : ℕ → ℕ → ℕ) (poly : ℕ) :
    FV.Holds keys (transformtoFV_cipher (maskedRequest coins request poly)) fun i =>
      object.fv.q / object.fv.t * negacyclicMul object.fv.degree
          (FV.slotCoefficients (object.fv.transformtopolyPp (request poly)))
          (FV.slotCoefficients (object.fv.transformtopolyPp masks.mask2)) i +
        negacyclicMul object.fv.degree (FV.freshNoise keys (coins poly).coins)
          (FV.slotCoefficients (object.fv.transformtopolyPp masks.mask2)) i := by
  have encrypted : FV.Holds keys
      (transformtoFV_cipher (encNTT keys (coins poly).coins (request poly))) fun i =>
        object.fv.q / object.fv.t *
          FV.slotCoefficients (object.fv.transformtopolyPp (request poly)) i +
            FV.freshNoise keys (coins poly).coins i := by
    simp only [encNTT, masks_eq]
    exact FV.holds_encrypt_poly keys (coins poly).coins
      fun cm i _ => FV.copyPp_invntt_pow_invphi _ cm i
  have product := encrypted.mul (transforms_mask matching) rfl
  simp only [maskedRequest, mulrdm, masks_eq]
  refine FV.Holds.congr product ?_
  intro i _
  rw [FV.negacyclicMul_add_left, FV.negacyclicMul_smul_left]

theorem abs_slotCoefficients_le (slots : object.fv.polyP_p.poly) (i : ℕ) :
    |FV.slotCoefficients slots i| ≤ ((object.fv.t - 1 : ℕ) : ℤ) :=
  abs_le_of_range (FV.slotCoefficients_range slots i)

/-- The difference of masked slots is the mask times their difference. -/
theorem difference_val (masks_eq : object.masks = some masks) (bytes : ℕ → UInt8)
    (request : ℕ → ℕ) (i : ℕ) :
    ((maskSlots 1 (object.fv.polyP_p.set (object.bytesSlots bytes)) -
      object.fv.transformtopolyPp request * object.fv.transformtopolyPp masks.mask2)
        object.fv.first i).val =
      NFLFV.blindedSlot object.fv.t (masks.mask2 i) (object.bytesSlots bytes i) (request i) := by
  have positive : NeZero object.fv.t := FV.p_neZero
  have words : ∀ word : ℕ → ℕ, object.fv.transformtopolyPp word object.fv.first i =
      ((word i : ℕ) : ZMod object.fv.t) := by
    intro word
    change ((word (0 * object.fv.degree + i) : ℕ) : ZMod object.fv.t) = _
    rw [Nat.zero_mul, Nat.zero_add]
  have expanded : ((object.bytesSlots bytes i : ℕ) : ZMod object.fv.t) * (masks.mask2 i : ℕ) -
      (request i : ℕ) * (masks.mask2 i : ℕ) =
        (((masks.mask2 i : ℤ) * ((object.bytesSlots bytes i : ℤ) - request i) : ℤ) :
          ZMod object.fv.t) := by
    push_cast
    ring
  have slot_eq : (maskSlots 1 (object.fv.polyP_p.set (object.bytesSlots bytes)) -
      object.fv.transformtopolyPp request * object.fv.transformtopolyPp masks.mask2)
        object.fv.first i =
      (((masks.mask2 i : ℤ) * ((object.bytesSlots bytes i : ℤ) - request i) : ℤ) :
        ZMod object.fv.t) := by
    simp only [maskSlots, masks_eq, if_pos]
    rw [Pi.sub_apply, Pi.sub_apply, Pi.mul_apply, Pi.mul_apply, Pi.mul_apply, Pi.mul_apply,
      words, words]
    exact expanded
  rw [slot_eq, NFLFV.blindedSlot]
  have value := ZMod.val_intCast (n := object.fv.t)
    ((masks.mask2 i : ℤ) * ((object.bytesSlots bytes i : ℤ) - request i))
  rw [← value, Int.toNat_natCast]
  rfl

end Requests

section Retrieval

variable {object : FVobject} {keys : object.fv.Keys} {noise eltNbr bytes : ℕ}
  {pirParams : PIRParameters} {masks : Masks}

/--
If both files come from the constructors, then the client extracts the masks times the
differences of the slots of the chosen element and of the request.
-/
theorem retrievesChunks_differenceBytes {draws : List (ℕ → ℕ)}
    (read : (draws.foldl object.fv.writeMasks ⟨none, none⟩).read = some masks)
    (masks_eq : object.masks = some masks)
    (budget : object.LeavesRequestBudget noise eltNbr)
    (n_le : ∀ level < pirParams.d, pirParams.n level ≤ eltNbr)
    (fits : object.SizesFit pirParams bytes) (bytes_lt : 8 * bytes < 2 ^ 64)
    (coins : ℕ → ℕ → BoundedCoins keys noise) (requestCoins : ℕ → BoundedCoins keys noise)
    {chosenElement : ℕ} (inside : chosenElement < pirParams.nbElements 0)
    (database : ℕ → ℕ → UInt8) (request : ℕ → ℕ → ℕ) (initial : ℕ → ℕ → object.Cipher) :
    RetrievesChunks pirParams object.cryptosystem cipherBytes (decryptBytes keys)
      ((pirParams.generateQuery encryptElement coins chosenElement).foldl pirParams.pushQuery
        ⟨initial, 0, 0⟩).queriesBuf
      (fun element => object.deserializeElement bytes_lt (database element))
      (object.cryptosystem.publicParams.plaintexts bytes 0)
      (some (maskedRequest requestCoins request)) (toInt bytes)
      (fun chunk => object.differenceBytes masks (NFLLWE.paddedChunks object.absorbedBytes bytes
        (database chosenElement) chunk) (request chunk)) := by
  have d_pos := pirParams.d_pos
  refine (selecting budget.leavesBudget n_le fits.few fits.counters).retrieves_outcome rfl
    object.cryptosystem_hasSizes.bounds fits.bytes_pos fits.few fits.rounds fits.keeps
    fits.offsets (pirParams.received_generateQuery encryptElement coins chosenElement initial)
    inside ?_ (fun _ _ _ _ _ _ _ => trivial)
  intro poly poly_lt data data_eq i i_lt
  rcases exists_block coins (n_le 0 d_pos) d_pos (fun k _ => fits.carries bytes_lt
    (database (pirParams.n 0 * pirParams.chosenAt chosenElement 1 + k)) poly_lt) with
      ⟨m, e, holds, range, noise_le, values⟩
  rw [pirParams.chosenAt_eq _ d_pos] at values
  have masked := holds_maskedRequest masks_eq (matching_of_read read) requestCoins request poly
  have difference := FV.Holds.sub holds masked rfl
  let r := FV.slotCoefficients (object.fv.transformtopolyPp (request poly))
  let w := FV.slotCoefficients (object.fv.transformtopolyPp masks.mask2)
  let noise' := FV.freshNoise keys (requestCoins poly).coins
  have sub_holds : FV.Holds keys (transformtoFV_cipher (object.cryptosystem.absorbed
      (pirParams.n 0) (fun k => object.deserializeElement bytes_lt
        (database (pirParams.n 0 * pirParams.chosenAt chosenElement 1 + k)) poly)
      (pirParams.queryElement encryptElement coins chosenElement 0)
      (some (maskedRequest requestCoins request poly)))) fun i =>
        object.fv.q / object.fv.t * (m i - negacyclicMul object.fv.degree r w i) +
          (e i - negacyclicMul object.fv.degree noise' w i) := by
    refine FV.Holds.congr difference ?_
    intro i _
    ring
  have noise_lt : ∀ i < object.fv.degree, |object.fv.noiseAt
      (fun i => m i - negacyclicMul object.fv.degree r w i)
      (fun i => e i - negacyclicMul object.fv.degree noise' w i) i| < (object.fv.q : ℤ) / 2 := by
    intro i i_lt
    have product_le := abs_negacyclicMul_le (fun i _ => abs_slotCoefficients_le
      (object.fv.transformtopolyPp (request poly)) i) (fun i _ => abs_slotCoefficients_le
        (object.fv.transformtopolyPp masks.mask2) i) i_lt
    have fresh_le := abs_negacyclicMul_le (requestCoins poly).noise_le
      (fun i _ => abs_slotCoefficients_le (object.fv.transformtopolyPp masks.mask2) i) i_lt
    have message_le := abs_le_of_range (range i i_lt)
    refine FV.abs_noiseAt_lt budget ?_ ?_
    · refine (abs_sub _ _).trans ((add_le_add message_le product_le).trans_eq ?_)
      push_cast
      rfl
    · refine (abs_sub _ _).trans ((add_le_add (noise_le i i_lt) fresh_le).trans_eq ?_)
      push_cast
      ring
  have transforms := values.sub ((FV.transforms_slotCoefficients
    (object.fv.transformtopolyPp (request poly))).mul
      (FV.transforms_slotCoefficients (object.fv.transformtopolyPp masks.mask2)))
  rw [ciphertextBytesize_eq] at data_eq
  have decrypted := decryptBytes_eq sub_holds noise_lt transforms data_eq 1
  rw [packed_congr fun i _ => difference_val masks_eq _ _ i] at decrypted
  exact eq_of_littleEndian_eq (decrypted.trans (littleEndian_bitSlices (packed_lt _)).symm) i_lt

end Retrieval

section Small

/-- What the first constructor leaves in the files. -/
def firstMasks (fv : FV) (rnd : ℕ → ℕ) : Masks where
  mask := fv.memoryWord (fv.encodeSlots (fv.transformtopolyPp (NFLFV.mask rnd)))
  mask2 := NFLFV.mask rnd

/-- Random bytes, which the constructor makes its masks of. -/
def randomBytes (i : ℕ) : ℕ := 7 * i + 3

/-- An object that has been constructed with these masks. -/
def masked : FVobject := FV1024_62c (firstMasks FV.FV1024_62 randomBytes)

theorem leavesRequestBudget_masked : masked.LeavesRequestBudget 4099 2 := by
  change 12289 * ((2 + 1) * (1024 * (4099 * (12289 - 1)))) +
    (12289 - 1) * ((12289 - 1) + 1024 * ((12289 - 1) * (12289 - 1))) < FV.FV1024_62.q / 2
  rw [FV.FV1024_62_q]
  decide

/-- A request for other slots than those of the chosen element. -/
theorem retrievesChunks_differenceBytes_fourElements :
    RetrievesChunks fourElements masked.cryptosystem cipherBytes
      (decryptBytes (FV.smallKeys masked.fv))
      ((fourElements.generateQuery encryptElement (fun _ _ => smallBoundedCoins
        (firstMasks FV.FV1024_62 randomBytes)) 2).foldl fourElements.pushQuery
          ⟨fun _ _ => (0, 0), 0, 0⟩).queriesBuf
      (fun element => masked.deserializeElement (by decide : 8 * 2000 < 2 ^ 64)
        fun byte => UInt8.ofNat (element + byte))
      (masked.cryptosystem.publicParams.plaintexts 2000 0)
      (some (maskedRequest (fun _ => smallBoundedCoins (firstMasks FV.FV1024_62 randomBytes))
        fun poly i => poly + i)) (toInt 2000)
      (fun chunk => masked.differenceBytes (firstMasks FV.FV1024_62 randomBytes)
        (NFLLWE.paddedChunks masked.absorbedBytes 2000 (fun byte => UInt8.ofNat (2 + byte)) chunk)
        fun i => chunk + i) :=
  @retrievesChunks_differenceBytes masked (FV.smallKeys masked.fv) 4099 2 2000 fourElements
    (firstMasks FV.FV1024_62 randomBytes) [randomBytes] rfl rfl leavesRequestBudget_masked
    (fun _ _ => le_rfl) (sizesFit_fourElements _) (by decide)
    (fun _ _ => smallBoundedCoins (firstMasks FV.FV1024_62 randomBytes))
    (fun _ => smallBoundedCoins (firstMasks FV.FV1024_62 randomBytes)) 2 (by decide)
    (fun element byte => UInt8.ofNat (element + byte)) (fun poly i => poly + i) (fun _ _ => (0, 0))

end Small

end FVobject

end Xpir.Nfl
