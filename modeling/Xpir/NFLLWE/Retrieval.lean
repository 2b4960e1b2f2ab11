import Xpir.NFLLWE.RequestLayout
import Xpir.NFLLWE.Selection

/-!
# Retrieval with the LWE cryptosystem

The client sets the parameters, lets them absorb as much as queries of the length of the
first dimension allow, and sends its queries. The server imports a database of elements of
equal size, computes the replies level by level, and the client extracts the chunks. This
file puts these parts together: the chunks are the bytes of the chosen element.

Two conditions do not follow from the parameters. The sizes of the element must be those
for which the counters and offsets of both parties are right, and no accumulation of the
server may leave the bounds of lazy reduction.
-/

namespace Xpir

open NFLlib PIRReplyExtraction

namespace NFLLWE

section Parameters

/-- The noise of a reply leaves room for a request. -/
theorem noise_margin {absorbed eltNbr noiseUB size : ℕ} (absorbed_pos : 0 < absorbed)
    (noiseUB_pos : 0 < noiseUB) (elements_pos : 0 < eltNbr * size) :
    2 * (eltNbr * (size * ((2 ^ absorbed - 1) * (2 ^ absorbed * (2 * noiseUB - 2) + 1))) +
        2 ^ absorbed) ≤
      4 * ((2 ^ absorbed - 1) * (2 ^ absorbed * (eltNbr * noiseUB * size))) := by
  obtain ⟨noise, rfl⟩ := Nat.exists_eq_add_of_le' noiseUB_pos
  have power : 1 < 2 ^ absorbed := Nat.one_lt_two_pow absorbed_pos.ne'
  obtain ⟨rest, power_eq⟩ := Nat.exists_eq_add_of_le' power.le
  have rest_pos : 0 < rest := by omega
  rw [power_eq, Nat.add_sub_cancel, show 2 * (noise + 1) - 2 = 2 * noise by omega]
  have terms_pos : 1 ≤ eltNbr * size * rest := Nat.mul_pos elements_pos rest_pos
  calc 2 * (eltNbr * (size * (rest * ((rest + 1) * (2 * noise) + 1))) + (rest + 1))
      = eltNbr * size * rest * (4 * (rest + 1) * noise + 2) + 2 * (rest + 1) * 1 := by ring
    _ ≤ eltNbr * size * rest * (4 * (rest + 1) * noise + 2) +
          2 * (rest + 1) * (eltNbr * size * rest) := by gcongr
    _ ≤ eltNbr * size * rest * (4 * (rest + 1) * noise + 2) +
          2 * (rest + 1) * (eltNbr * size * rest) + eltNbr * size * rest * (2 * rest) :=
        Nat.le_add_right _ _
    _ = 4 * (rest * ((rest + 1) * (eltNbr * (noise + 1) * size))) := by ring

variable {before : NFLLWE} {eltNbr : ℕ}

theorem leavesBudget_of_chosen (eltNbr_pos : 0 < eltNbr) (noiseUB_ge : 2 ≤ before.noiseUB)
    (positive : 0 < (before.setandgetAbsBitPerCiphertext eltNbr).2) :
    (before.setandgetAbsBitPerCiphertext eltNbr).1.LeavesBudget eltNbr := by
  have chosen := nbrBit_le positive
  have chosen_eq := aBits_setandgetAbsBitPerCiphertext positive
  have product_ge := before.isStandard.moduliProduct_ge
  have moduli_pos := nbModuli_pos_of_positive positive
  have degree_pos : 0 < before.nfl.polyDegree := Nat.two_pow_pos _
  have elements : 2 ≤ eltNbr * before.noiseUB * before.nfl.polyDegree := by
    calc 2 = 1 * 2 * 1 := rfl
      _ ≤ eltNbr * before.noiseUB * before.nfl.polyDegree := by gcongr <;> omega
  constructor
  · rw [chosen_eq]
    exact two_pow_le_moduliProduct positive
  · have absorbed_pos : 0 < (before.setandgetAbsBitPerCiphertext eltNbr).2.toNat := by omega
    rw [chosen_eq]
    refine (noise_margin absorbed_pos (show 0 < before.noiseUB by omega)
      (Nat.mul_pos eltNbr_pos degree_pos)).trans_lt ?_
    rw [getmodulusBitsize, kModulusBitsize] at chosen
    rcases before.isStandard with ⟨inRange, _⟩
    rcases Nat.eq_or_lt_of_le (show 1 ≤ before.nfl.nbModuli from moduli_pos) with single | several
    · have bound := noise_lt_of_single chosen single.symm elements
      rw [← single, pow_one] at product_ge
      exact bound.trans_le product_ge
    · exact (noise_lt_of_several chosen several inRange (by omega)).trans_le product_ge

variable {securityBits levels aggregatedModulusBitsize : ℕ} {levels_le : levels ≤ 13}
  {absPCBitsize : ℤ} {rnd : ∀ nbModuli, NFLlib.Poly nbModuli}

theorem nfl_of_setNewParameters
    (accepted : setNewParameters securityBits levels_le aggregatedModulusBitsize absPCBitsize
      rnd = some before) :
    before.nfl.levels = levels ∧
      before.nfl.nbModuli = aggregatedModulusBitsize / kModulusBitsize := by
  rw [setNewParameters] at accepted
  split at accepted
  · cases accepted
  · split at accepted
    · rw [← Option.some.inj accepted]
      exact ⟨rfl, rfl⟩
    · cases accepted

/-- Parameters of at least eight coefficients and at most fifteen moduli can be used. -/
theorem usable_of_accepted
    (accepted : setNewParameters securityBits levels_le aggregatedModulusBitsize absPCBitsize
      rnd = some before) (securityBits_pos : 1 ≤ securityBits) (levels_ge : 3 ≤ levels)
    (modulus_lt : aggregatedModulusBitsize < 960) (eltNbr_pos : 0 < eltNbr)
    (positive : 0 < (before.setandgetAbsBitPerCiphertext eltNbr).2) :
    (before.setandgetAbsBitPerCiphertext eltNbr).1.Usable := by
  have chosen := nbrBit_le positive
  have chosen_eq := aBits_setandgetAbsBitPerCiphertext positive
  rcases nfl_of_setNewParameters accepted with ⟨levels_eq, nbModuli_eq⟩
  have noiseUB_ge : 2 ≤ before.noiseUB := by
    rw [noiseUB_of_setNewParameters accepted, noiseUpperBound]
    omega
  have degree_ge : 8 ≤ before.nfl.polyDegree := by
    rw [polyDegree, levels_eq]
    exact Nat.pow_le_pow_right (show 0 < 2 by decide) levels_ge
  have elements : 8 ≤ eltNbr * before.noiseUB * before.nfl.polyDegree := by
    calc 8 = 1 * 1 * 8 := rfl
      _ ≤ eltNbr * before.noiseUB * before.nfl.polyDegree := by gcongr <;> omega
  have logarithm : 3 ≤ Nat.clog 2 (eltNbr * before.noiseUB * before.nfl.polyDegree) := by
    have mono := Nat.clog_mono_right 2 elements
    have eight : Nat.clog 2 8 = 3 := by decide
    omega
  refine ⟨nbModuli_pos_of_positive positive, ?_, ?_, ?_, ?_⟩
  · change before.nfl.nbModuli ≤ 15
    rw [nbModuli_eq, kModulusBitsize]
    omega
  · change 2 ^ 3 ∣ 2 ^ before.nfl.levels
    rw [levels_eq]
    exact pow_dvd_pow 2 levels_ge
  · rw [chosen_eq]
    omega
  · rw [chosen_eq]
    simp only [setandgetAbsBitPerCiphertext] at positive ⊢
    change 2 * _ + 2 < before.nfl.getmodulusBitsize
    omega

end Parameters

section Model

variable {lwe : NFLLWE} (usable : lwe.Usable)

/-- The buffer of an aggregated element. -/
def elementShape {bytes : ℕ} (bytes_lt : 8 * bytes < 2 ^ 64) : SplitShape :=
  Xpir.elementShape bytes lwe.aBits ⟨usable.absorbs_pos, bytes_lt⟩

/-- An element of the database: the polynomials that are made from a buffer. -/
def deserializeElement {bytes : ℕ} (bytes_lt : 8 * bytes < 2 ^ 64) (rawBits : ℕ → UInt8) :
    ℕ → Poly lwe.nfl.nbModuli :=
  importPolys usable (elementShape usable bytes_lt) fun _ pointer => rawBits pointer.toNat

/-- The chunks of some bytes, the last of them filled with zeros. -/
def paddedChunks (size bytes : ℕ) (memory : ℕ → UInt8) (chunk i : ℕ) : UInt8 :=
  if chunk * size + i < bytes then memory (chunk * size + i) else 0

/-- The polynomials of all elements carry the chunks of their bytes. -/
def HoldsDatabase (bytes : ℕ) (database : ℕ → ℕ → UInt8)
    (inputData : ℕ → ℕ → Poly lwe.nfl.nbModuli) : Prop :=
  ∀ element, ∀ poly < (cryptosystem usable).publicParams.plaintexts bytes 0,
    lwe.Carries (inputData element poly)
      (paddedChunks lwe.absorbedBytes bytes (database element) poly)

/-- All counters and offsets are right for elements of a size. -/
structure SizesFit (pirParams : PIRParameters) (bytes : ℕ) : Prop where
  bytes_pos : 0 < bytes
  few : (cryptosystem usable).publicParams.plaintexts bytes (pirParams.d - 1) < 2 ^ 32
  rounds : LatticesBasedCryptosystem.RoundsFit pirParams
  keeps : (cryptosystem usable).publicParams.KeepsChunks pirParams.d bytes
  offsets : OffsetsFit (cryptosystem usable).publicParams pirParams.d bytes
  counters : CountersFit usable pirParams.d bytes
  imports : ∀ bytes_lt : 8 * bytes < 2 ^ 64,
    (lwe.polyShape usable.moduli_pos).CountersFit (elementShape usable bytes_lt)

/--
No accumulation on the way of the chosen element through the levels leaves the bounds of lazy
reduction.
-/
def SoundPath (pirParams : PIRParameters) (coins : ℕ → ℕ → Coins lwe.nfl.nbModuli)
    (chosenElement : ℕ) (initial : ℕ → ℕ → Poly lwe.nfl.nbModuli × Poly lwe.nfl.nbModuli)
    (inputData : ℕ → ℕ → Poly lwe.nfl.nbModuli) (bytes : ℕ)
    (subtract : Option (ℕ → Poly lwe.nfl.nbModuli × Poly lwe.nfl.nbModuli)) : Prop :=
  ∀ final, (cryptosystem usable).generateReply pirParams (2 ^ 32)
    ((pirParams.generateQuery lwe.encryptElement coins chosenElement).foldl pirParams.pushQuery
      ⟨initial, 0, 0⟩).queriesBuf inputData
    ((cryptosystem usable).publicParams.plaintexts bytes 0) subtract = some final →
      ∀ level < pirParams.d, ∀ poly < (cryptosystem usable).publicParams.plaintexts bytes level,
        lwe.SoundReply (pirParams.n level) (fun k => (cryptosystem usable).levelData inputData
            ((cryptosystem usable).publicParams.plaintexts bytes 0) final.interReply level
            (pirParams.n level * pirParams.chosenAt chosenElement (level + 1) + k) poly)
          (pirParams.queryElement lwe.encryptElement coins chosenElement level)

/-- The chunks that the client extracts from the replies to its queries. -/
def RetrievesFrom (pirParams : PIRParameters) (bytes : ℕ)
    (inputData : ℕ → ℕ → Poly lwe.nfl.nbModuli) (coins : ℕ → ℕ → Coins lwe.nfl.nbModuli)
    (chosenElement : ℕ) (initial : ℕ → ℕ → Poly lwe.nfl.nbModuli × Poly lwe.nfl.nbModuli)
    (subtract : Option (ℕ → Poly lwe.nfl.nbModuli × Poly lwe.nfl.nbModuli))
    (chunks : ℕ → ℕ → UInt8) : Prop :=
  RetrievesChunks pirParams (cryptosystem usable) lwe.cipherBytes lwe.decryptBytes
    ((pirParams.generateQuery lwe.encryptElement coins chosenElement).foldl pirParams.pushQuery
      ⟨initial, 0, 0⟩).queriesBuf inputData
    ((cryptosystem usable).publicParams.plaintexts bytes 0) subtract (toInt bytes) chunks

end Model

section Import

variable {lwe : NFLLWE}

theorem polyNumber_elementShape (usable : lwe.Usable) {bytes : ℕ} (bytes_lt : 8 * bytes < 2 ^ 64) :
    (lwe.polyShape usable.moduli_pos).polyNumber (elementShape usable bytes_lt) =
      (cryptosystem usable).publicParams.plaintexts bytes 0 := by
  have absorbed_pos : 0 < lwe.absorbedBytes := by
    rw [← absorptionBytesize_eq usable]
    exact (cryptosystem_hasSizes usable).bounds.absorption_pos
  have divisor : (elementShape usable bytes_lt).bitsPerChunk *
      (lwe.polyShape usable.moduli_pos).polyDegree = 8 * lwe.absorbedBytes := by
    rw [eight_mul_absorbedBytes usable.degree_dvd, mul_comm]
    rfl
  have total : PolyShape.totalBits (elementShape usable bytes_lt) = 8 * bytes := Nat.one_mul _
  rw [PolyShape.polyNumber, total, divisor, mul_ceilDiv_mul (by decide : 0 < 8) absorbed_pos,
    PublicParameters.plaintexts_zero, absorptionBytesize_eq]

theorem importedBytes_elementShape (usable : lwe.Usable) {bytes : ℕ}
    (bytes_lt : 8 * bytes < 2 ^ 64) (memory : ℕ → UInt8) (chunk : ℕ) :
    lwe.importedBytes (elementShape usable bytes_lt) (fun _ pointer => memory pointer.toNat) chunk =
      paddedChunks lwe.absorbedBytes bytes memory chunk := by
  funext i
  have single : (elementShape usable bytes_lt).nbrOfBuffers *
      (elementShape usable bytes_lt).bytesPerBuffer = bytes := Nat.one_mul bytes
  rw [importedBytes, paddedChunks]
  simp only [single]
  split
  next inside =>
    change memory ((chunk * lwe.absorbedBytes + i) % bytes : ℕ) = _
    rw [Nat.mod_eq_of_lt inside]
  next => rfl

/-- The polynomials of an element carry its chunks. -/
theorem SizesFit.carries {usable : lwe.Usable} {pirParams : PIRParameters} {bytes : ℕ}
    (fits : SizesFit usable pirParams bytes) (bytes_lt : 8 * bytes < 2 ^ 64)
    (rawBits : ℕ → UInt8) :
    ∀ poly < (cryptosystem usable).publicParams.plaintexts bytes 0,
      lwe.Carries (deserializeElement usable bytes_lt rawBits poly)
        (paddedChunks lwe.absorbedBytes bytes rawBits poly) := by
  intro poly poly_lt
  have number := polyNumber_elementShape usable bytes_lt
  have few := ((cryptosystem_hasSizes usable).bounds.plaintexts_mono bytes
    (Nat.zero_le (pirParams.d - 1))).trans_lt fits.few
  have carries := importPolys_carries usable rfl (fits.imports bytes_lt) (by rw [number]; omega)
    (fun _ pointer => rawBits pointer.toNat)
  rw [number] at carries
  rw [← importedBytes_elementShape usable bytes_lt]
  exact carries poly poly_lt

/-- The polynomials that an element is filled up with carry zeros. -/
theorem carries_zero (lwe : NFLLWE) : lwe.Carries (fun _ _ => 0) (fun _ => 0) := by
  intro cm cell _
  have zeros : littleEndian (fun _ => 0) lwe.absorbedBytes = 0 :=
    concatenate_eq_zero_iff.mpr fun _ _ => rfl
  have coefficients : (fun i => ((bitSlice (littleEndian (fun _ => 0) lwe.absorbedBytes)
      (i * lwe.aBits) lwe.aBits : ℕ) : ZMod (lwe.nfl.moduli cm).p)) = fun _ => 0 := by
    funext i
    rw [zeros, bitSlice_eq_zero (Nat.two_pow_pos _), Nat.cast_zero]
  have difference := transformOf_sub cm (fun _ => 0) (fun _ => 0) cell
  simp only [sub_self] at difference
  rw [coefficients, difference, Nat.cast_zero]
  exact ⟨Nat.mul_pos Nat.two_pos (lwe.nfl.moduli cm).p_pos, rfl⟩

end Import

section Retrieval

variable {lwe : NFLLWE} {usable : lwe.Usable} {pirParams : PIRParameters} {eltNbr bytes : ℕ}
  {coins : ℕ → ℕ → Coins lwe.nfl.nbModuli} {chosenElement : ℕ}
  {initial : ℕ → ℕ → Poly lwe.nfl.nbModuli × Poly lwe.nfl.nbModuli}
  {database : ℕ → ℕ → UInt8} {inputData : ℕ → ℕ → Poly lwe.nfl.nbModuli}
  {subtract : Option (ℕ → Poly lwe.nfl.nbModuli × Poly lwe.nfl.nbModuli)}

/-- All polynomials that a level absorbs carry some bytes. -/
theorem SizesFit.exists_carries (fits : SizesFit usable pirParams bytes)
    (holds : HoldsDatabase usable bytes database inputData)
    (interReply : ℕ → ℕ → ℕ → Poly lwe.nfl.nbModuli × Poly lwe.nfl.nbModuli) {level : ℕ}
    (level_lt : level < pirParams.d) (element : ℕ) {poly : ℕ}
    (poly_lt : poly < (cryptosystem usable).publicParams.plaintexts bytes level) :
    ∃ content, lwe.Carries ((cryptosystem usable).levelData inputData
      ((cryptosystem usable).publicParams.plaintexts bytes 0) interReply level element poly)
        content := by
  cases level with
  | zero => exact ⟨_, holds element poly poly_lt⟩
  | succ level =>
      have bounds := (cryptosystem_hasSizes usable).bounds
      have number := polyNumber_ciphertextShape usable bytes level
      have few : ∀ lower ≤ pirParams.d - 1,
          (cryptosystem usable).publicParams.plaintexts bytes lower < 2 ^ 32 :=
        fun lower lower_le => (bounds.plaintexts_mono _ lower_le).trans_lt fits.few
      have small := few (level + 1) (by omega)
      have polys := LatticesBasedCryptosystem.levelPolys_eq_plaintexts rfl bounds (few level (by omega))
      have carries := importPolys_carries usable rfl (fits.counters level level_lt)
        (by rw [number]; omega)
        (fun bufferIndex pointer => lwe.cipherBytes (interReply level element bufferIndex)
          pointer.toNat)
      rw [LatticesBasedCryptosystem.levelData, polys]
      exact ⟨_, carries poly (by rw [number]; exact poly_lt)⟩

/-- With dimensions of at most five elements no accumulation leaves the bounds. -/
theorem SizesFit.soundPath (configured : Configured lwe) (fits : SizesFit usable pirParams bytes)
    (holds : HoldsDatabase usable bytes database inputData)
    (short : ∀ level < pirParams.d, pirParams.n level ≤ 5) :
    SoundPath usable pirParams coins chosenElement initial inputData bytes subtract := by
  intro final _ level level_lt poly poly_lt
  choose content carries using fun k : ℕ => fits.exists_carries holds final.interReply level_lt
    (pirParams.n level * pirParams.chosenAt chosenElement (level + 1) + k) poly_lt
  have encrypts : ∀ k, ∃ v, lwe.Encrypts
      (pirParams.queryElement lwe.encryptElement coins chosenElement level k) v := by
    intro k
    rw [PIRParameters.queryElement]
    split
    next =>
      rcases configured.encrypts_encryptUint usable (coins level k) (le_refl 1) with ⟨_, _, encrypts⟩
      exact ⟨_, encrypts⟩
    next =>
      rcases configured.encrypts_encryptUint usable (coins level k) (Nat.zero_le 1) with
        ⟨_, _, encrypts⟩
      exact ⟨_, encrypts⟩
  choose v encrypted using encrypts
  exact soundReply_of_le_five (fun k _ => carries k) (fun k _ => encrypted k)
    (short level level_lt)

theorem retrievesFrom_of_sound (configured : Configured lwe) (budget : lwe.LeavesBudget eltNbr)
    (n_le : ∀ level < pirParams.d, pirParams.n level ≤ eltNbr)
    (fits : SizesFit usable pirParams bytes)
    (holds : HoldsDatabase usable bytes database inputData)
    (inside : chosenElement < pirParams.nbElements 0)
    (sound : SoundPath usable pirParams coins chosenElement initial inputData bytes none) :
    RetrievesFrom usable pirParams bytes inputData coins chosenElement initial none
      (paddedChunks lwe.absorbedBytes bytes (database chosenElement)) := by
  have chosen : ∀ element < pirParams.nbElements 0,
      ∀ poly < (cryptosystem usable).publicParams.plaintexts bytes 0,
        lwe.Carries (inputData element poly)
          (paddedChunks lwe.absorbedBytes bytes (database element) poly) :=
    fun element _ => holds element
  exact (selecting configured usable budget n_le fits.few fits.counters).retrieves rfl
    (cryptosystem_hasSizes usable).bounds fits.bytes_pos fits.few fits.rounds fits.keeps
    fits.offsets (pirParams.received_generateQuery lwe.encryptElement coins chosenElement initial)
    inside chosen sound

end Retrieval

section Small

/-- The small key, with what it absorbs for queries of two elements. -/
def smallPair : NFLLWE := (smallKey.setandgetAbsBitPerCiphertext 2).1

theorem smallPair_absorptionBytesize (usable : smallPair.Usable) :
    (cryptosystem usable).publicParams.absorptionBytesize = 1280 := by
  change smallPair.getAbsorptionBitsize / 8 = 1280
  decide +kernel

theorem smallPair_sizesFit (usable : smallPair.Usable) {pirParams : PIRParameters}
    (single : pirParams.d = 1) (n_le : pirParams.n 0 ≤ 5) {bytes : ℕ} (bytes_pos : 0 < bytes)
    (bytes_le : bytes ≤ 4) : SizesFit usable pirParams bytes where
  bytes_pos := bytes_pos
  few := by
    rw [single, PublicParameters.plaintexts_zero, smallPair_absorptionBytesize,
      Nat.ceilDiv_eq_add_pred_div]
    omega
  rounds := by
    intro level level_lt
    obtain rfl : level = 0 := by omega
    rw [maxQuerySize]
    omega
  keeps := by
    refine ⟨by omega, ?_, ?_⟩
    · exact (cryptosystem_hasSizes usable).bounds.staysWithin_of_lt bytes_pos
        (show bytes < 2 ^ 24 by omega)
    · intro level level_lt
      omega
  offsets := by
    intro level level_lt level_pos
    omega
  counters := by
    intro level level_lt
    omega
  imports := by
    intro bytes_lt
    rw [PolyShape.CountersFit, if_neg]
    · exact Or.inl rfl
    · have bits : (elementShape usable bytes_lt).bitsPerChunk = 20 := by
        change smallPair.aBits = 20
        decide +kernel
      rw [SplitShape.intUint64PerChunk, bits]
      decide

theorem two_lt_counter : 2 < 2 ^ 32 := by decide

/-- A single dimension of two elements. -/
def twoElements (alpha : Fin 2) : PIRParameters where
  alpha := alpha + 1
  d := 1
  n := fun _ => 2
  alpha_pos := Nat.succ_pos _
  d_pos := Nat.one_pos
  n_pos := fun _ _ => Nat.two_pos
  n_lt := fun _ _ => two_lt_counter

end Small

end NFLLWE

end Xpir
