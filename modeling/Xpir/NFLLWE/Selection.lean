import Xpir.NFLLWE.ImportedPolynomials
import Xpir.ReplyExtraction.Retrieval

/-!
# Selection with the LWE cryptosystem

This file gives the operations of the cryptosystem to the reply generation and to the
extraction, and shows that they select. A block of stored polynomials that is absorbed with
the ciphertexts of a dimension decrypts to the bytes of the polynomial at the coordinate of
the client, as long as no accumulation leaves the bounds of lazy reduction. The bytes of the
ciphertexts of a level come back from the polynomials of the next one.

If a request is subtracted from the block, then every coefficient is the difference of the
two coefficients modulo the power of two that is absorbed.
-/

namespace Xpir

open NFLlib PIRReplyExtraction

namespace NFLLWE

variable (lwe : NFLLWE)

/-- The parameters with which ciphertexts absorb whole bytes and have the announced size. -/
structure Usable : Prop where
  moduli_pos : 0 < lwe.nfl.nbModuli
  moduli_le : lwe.nfl.nbModuli ≤ 15
  degree_dvd : 8 ∣ lwe.nfl.polyDegree
  absorbs_pos : 0 < lwe.aBits
  absorbs_lt : 2 * lwe.aBits + 2 < lwe.nfl.getmodulusBitsize

section Model

variable {lwe} (usable : lwe.Usable)

/-- The ciphertexts of a level, as the import sees them. -/
def ciphertextShape (count : ℕ) : SplitShape :=
  (lwe.polyShape usable.moduli_pos).ciphertexts count usable.absorbs_pos

/-- The loops of an import of ciphertexts end with this fuel if their counters suffice. -/
def importFuel (shape : SplitShape) : ℕ :=
  2 * shape.bitsPerBuffer + 66 + PolyShape.totalNbChunks shape +
    (lwe.polyShape usable.moduli_pos).polyNumber shape

/-- The polynomials made of some buffers. -/
def importPolys (shape : SplitShape) (buffers : ℕ → ℤ → UInt8) : ℕ → Poly lwe.nfl.nbModuli :=
  (lwe.deserializeDataNFL usable.moduli_pos (importFuel usable shape) shape buffers).getD
    fun _ _ _ => 0

/-- The operations that the server uses. -/
def cryptosystem : LatticesBasedCryptosystem (Poly lwe.nfl.nbModuli)
    (Poly lwe.nfl.nbModuli × Poly lwe.nfl.nbModuli) where
  zero := (fun _ _ => 0, fun _ _ => 0)
  mulandadd rop data query := lwe.mulandadd rop data query (lwe.shoup query)
  sub := lwe.sub
  deserializeDataNFL ciphers count :=
    importPolys usable (ciphertextShape usable count)
      fun bufferIndex pointer => lwe.cipherBytes (ciphers bufferIndex) pointer.toNat
  absorptionBitsize := lwe.getAbsorptionBitsize
  ciphertextBitsize := (lwe.polyShape usable.moduli_pos).getCiphertextBitsize

end Model

/-- The ciphertext of a coordinate, which is the same at all levels. -/
def encryptElement (coins : Coins lwe.nfl.nbModuli) (ui _recLvl : ℕ) :
    Poly lwe.nfl.nbModuli × Poly lwe.nfl.nbModuli :=
  lwe.encryptUint coins ui

/-- The bytes that the client decrypts from the bytes of a ciphertext. -/
def decryptBytes (_recLvl : ℕ) (cipheredData : ℕ → UInt8) : ℕ → UInt8 :=
  (lwe.decrypt ((lwe.aBits ⌈/⌉ 64 + lwe.aBits ⌈/⌉ 32) * lwe.nfl.polyDegree + 1)
    (lwe.ciphertextOf cipheredData)).getD fun _ => 0

/-- The replies to queries of some length, less a request, stay in the noise range. -/
structure LeavesBudget (eltNbr : ℕ) : Prop where
  absorbs : 2 ^ lwe.aBits ≤ lwe.nfl.moduliProduct
  noise_lt : 2 * (eltNbr * (lwe.nfl.polyDegree * ((2 ^ lwe.aBits - 1) *
    (2 ^ lwe.aBits * (2 * lwe.noiseUB - 2) + 1))) + 2 ^ lwe.aBits) < lwe.nfl.moduliProduct

section Sizes

variable {lwe} (usable : lwe.Usable)

theorem Usable.short (usable : lwe.Usable) : lwe.nfl.nbModuli = 1 → lwe.aBits ≤ 56 := by
  intro single
  have absorbs_lt := usable.absorbs_lt
  rw [getmodulusBitsize, kModulusBitsize, single] at absorbs_lt
  omega

theorem Usable.aBits_le (usable : lwe.Usable) : lwe.aBits ≤ 448 := by
  have absorbs_lt := usable.absorbs_lt
  have moduli_le := usable.moduli_le
  rw [getmodulusBitsize, kModulusBitsize] at absorbs_lt
  omega

theorem cryptosystem_hasSizes :
    (cryptosystem usable).publicParams.HasSizes (lwe.polyShape usable.moduli_pos) lwe.aBits where
  degree := usable.degree_dvd
  abs_pos := usable.absorbs_pos
  abs_lt := by
    have absorbs_lt := usable.absorbs_lt
    rw [getmodulusBitsize, mul_comm kModulusBitsize] at absorbs_lt
    change lwe.aBits < lwe.nfl.nbModuli * kModulusBitsize
    omega
  absorption := (polyDegree_mul_aBits lwe).symm
  ciphertext := rfl

theorem absorptionBytesize_eq :
    (cryptosystem usable).publicParams.absorptionBytesize = lwe.absorbedBytes := by
  rw [absorbedBytes, polyDegree_mul_aBits]
  rfl

/-- The size of a ciphertext is that of its words. -/
theorem ciphertextBytesize_eq :
    (cryptosystem usable).publicParams.ciphertextBytesize =
      16 * (lwe.nfl.nbModuli * lwe.nfl.polyDegree) := by
  have moduli_le := usable.moduli_le
  have words : (lwe.polyShape usable.moduli_pos).nbModuli * kModulusBitsize ⌈/⌉ 64 =
      lwe.nfl.nbModuli := by
    change lwe.nfl.nbModuli * kModulusBitsize ⌈/⌉ 64 = lwe.nfl.nbModuli
    rw [Nat.ceilDiv_eq_add_pred_div, kModulusBitsize]
    omega
  have size_eq := (lwe.polyShape usable.moduli_pos).getCiphertextBitsize_eq
  rw [words] at size_eq
  change (lwe.polyShape usable.moduli_pos).getCiphertextBitsize / 8 = _
  rw [size_eq]
  change 128 * (lwe.nfl.nbModuli * lwe.nfl.polyDegree) / 8 = _
  omega

end Sizes

section Queries

variable {lwe}

theorem enc_fst_lt (m : Poly lwe.nfl.nbModuli) (rndNoise : ℕ → ℕ)
    (rndUniform : Poly lwe.nfl.nbModuli) (cm : Fin lwe.nfl.nbModuli) {cell : ℕ}
    (cell_lt : cell < lwe.nfl.polyDegree) :
    (lwe.enc m rndNoise rndUniform).1 cm cell < (lwe.nfl.moduli cm).p := by
  simp only [enc]
  rw [forLoop_update_apply lwe.nfl.polyDegree (fun _ word => word % (lwe.nfl.moduli cm).p),
    if_pos cell_lt]
  exact Nat.mod_lt _ (lwe.nfl.moduli cm).p_pos

/-- The encryption of a polynomial of words, which contains no noise. -/
theorem Configured.encrypts_enc (configured : Configured lwe) {m : Poly lwe.nfl.nbModuli}
    {v : ℕ → ℕ} (m_lt : ∀ cm, ∀ i < lwe.nfl.polyDegree, m cm i < 2 ^ 64)
    (same : ∀ cm, ∀ i < lwe.nfl.polyDegree,
      (m cm i : ZMod (lwe.nfl.moduli cm).p) = (v i : ZMod (lwe.nfl.moduli cm).p))
    (coins : Coins lwe.nfl.nbModuli) :
    lwe.Encrypts (lwe.enc m coins.noise coins.uniform) (fun i => v i) where
  reduced_a := fun cm _ cell_lt => enc_fst_lt m coins.noise coins.uniform cm cell_lt
  reduced_b := fun cm _ cell_lt => lwe.enc_snd_lt m coins.noise coins.uniform cm cell_lt
  phase_eq := by
    intro cm cell cell_lt
    rw [configured.phase_enc (m_lt cm) coins.noise coins.uniform cell_lt]
    apply negacyclicTransform_congr
    intro i i_lt
    rw [same cm i i_lt, Int.cast_natCast]

/-- An encrypted coordinate is a bit and a multiple of the amplifier. -/
theorem Configured.encrypts_encryptUint (configured : Configured lwe) (usable : lwe.Usable)
    (coins : Coins lwe.nfl.nbModuli) {ui : ℕ} (bit : ui ≤ 1) :
    ∃ noise : ℕ → ℕ, (∀ i, noise i ≤ 2 * lwe.noiseUB - 2) ∧
      lwe.Encrypts (lwe.encryptUint coins ui) (amplified lwe.aBits noise ui) := by
  have absorbs_pos : 0 < lwe.getAbsorptionBitsize := by
    rw [← polyDegree_mul_aBits]
    exact Nat.mul_pos (Nat.two_pow_pos _) usable.absorbs_pos
  have uncut : ¬ lwe.getAbsorptionBitsize ≤ Nat.clog 2 ui := by
    have small : Nat.clog 2 ui = 0 := Nat.clog_of_right_le_one bit 2
    omega
  have value : amplified lwe.aBits (fun _ => 0) ui = fun i => ((if i = 0 then ui else 0 : ℕ) : ℤ) := by
    funext i
    rw [amplified, Nat.cast_zero, mul_zero, zero_add]
    split <;> rfl
  refine ⟨fun _ => 0, fun _ => Nat.zero_le _, ?_⟩
  rw [encryptUint, if_neg uncut, value]
  apply configured.encrypts_enc
  · intro cm i _
    rw [constantPoly]
    split <;> omega
  · intro cm i _
    rw [constantPoly]

end Queries

section Blocks

variable {lwe} {usable : lwe.Usable} {pirParams : PIRParameters} {eltNbr chosenElement level : ℕ}
  {coins : ℕ → ℕ → Coins lwe.nfl.nbModuli} {data : ℕ → Poly lwe.nfl.nbModuli}
  {bytes : ℕ → ℕ → UInt8}

/-- What the server absorbs is the sum with lazy reductions. -/
theorem absorbed_eq_lazyReply (size : ℕ) (data : ℕ → Poly lwe.nfl.nbModuli)
    (query : ℕ → Poly lwe.nfl.nbModuli × Poly lwe.nfl.nbModuli) :
    (cryptosystem usable).absorbed size data query none = lwe.lazyReply size data query := by
  rw [LatticesBasedCryptosystem.absorbed, LatticesBasedCryptosystem.absorbRange]
  simp only [Nat.zero_add]
  rfl

theorem bits_lt_two_pow (bytes : ℕ → UInt8) (degree_dvd : 8 ∣ lwe.nfl.polyDegree) :
    littleEndian bytes lwe.absorbedBytes < 2 ^ (lwe.nfl.polyDegree * lwe.aBits) := by
  rw [← eight_mul_absorbedBytes degree_dvd]
  exact littleEndian_lt _ _

/-- The integers of an absorbed block are in the noise range, with the chosen coefficients. -/
theorem exists_block (configured : Configured lwe) (usable : lwe.Usable)
    (budget : lwe.LeavesBudget eltNbr) (n_le : pirParams.n level ≤ eltNbr)
    (level_lt : level < pirParams.d)
    (carries : ∀ k < pirParams.n level, lwe.Carries (data k) (bytes k))
    (sound : lwe.SoundReply (pirParams.n level) data
      (pirParams.queryElement lwe.encryptElement coins chosenElement level)) :
    ∃ v : ℕ → ℤ,
      lwe.LazilyEncrypts ((cryptosystem usable).absorbed (pirParams.n level) data
        (pirParams.queryElement lwe.encryptElement coins chosenElement level) none) v ∧
      (∀ i < lwe.nfl.polyDegree, 2 * (|v i| + 2 ^ lwe.aBits) < lwe.nfl.moduliProduct) ∧
      ∀ i < lwe.nfl.polyDegree, v i % 2 ^ lwe.aBits = bitSlice (littleEndian
        (bytes (pirParams.computeCoordinates chosenElement level)) lwe.absorbedBytes)
          (i * lwe.aBits) lwe.aBits := by
  have coordinate_lt := pirParams.computeCoordinates_lt chosenElement level_lt
  choose noise noise_le encrypts using fun k => configured.encrypts_encryptUint usable
    (coins level k) (show (if k = pirParams.computeCoordinates chosenElement level then 1 else 0) ≤ 1
      by split <;> omega)
  have queries : ∀ k < pirParams.n level,
      lwe.Encrypts (pirParams.queryElement lwe.encryptElement coins chosenElement level k)
        (amplified lwe.aBits (noise k)
          (if k = pirParams.computeCoordinates chosenElement level then 1 else 0)) := by
    intro k _
    have encrypted := encrypts k
    rw [PIRParameters.queryElement]
    split
    next same =>
      rw [if_pos same] at encrypted
      exact encrypted
    next other =>
      rw [if_neg other] at encrypted
      exact encrypted
  have bit_le : ∀ k < pirParams.n level,
      (if k = pirParams.computeCoordinates chosenElement level then 1 else 0) ≤ 1 := by
    intro k _
    split <;> omega
  let coefficient (k i : ℕ) : ℕ :=
    bitSlice (littleEndian (bytes k) lwe.absorbedBytes) (i * lwe.aBits) lwe.aBits
  have stored : ∀ k < pirParams.n level, lwe.Stored (data k) (coefficient k) := carries
  have coefficient_lt : ∀ k < pirParams.n level, ∀ i < lwe.nfl.polyDegree,
      coefficient k i < 2 ^ lwe.aBits := fun _ _ _ _ => bitSlice_lt _ _ _
  refine ⟨replyPolynomial lwe.nfl.polyDegree (pirParams.n level) coefficient fun k =>
    amplified lwe.aBits (noise k)
      (if k = pirParams.computeCoordinates chosenElement level then 1 else 0), ?_, ?_, ?_⟩
  · rw [absorbed_eq_lazyReply]
    exact lazilyEncrypts_lazyReply stored queries sound
  · intro i i_lt
    have bound := abs_replyPolynomial_le coefficient_lt (fun k _ i _ => noise_le k i) bit_le i_lt
    have wider : pirParams.n level * (lwe.nfl.polyDegree * ((2 ^ lwe.aBits - 1) *
        (2 ^ lwe.aBits * (2 * lwe.noiseUB - 2) + 1))) ≤ eltNbr * (lwe.nfl.polyDegree *
          ((2 ^ lwe.aBits - 1) * (2 ^ lwe.aBits * (2 * lwe.noiseUB - 2) + 1))) :=
      Nat.mul_le_mul_right _ n_le
    have limit := (Nat.mul_le_mul_left 2 (Nat.add_le_add_right wider (2 ^ lwe.aBits))).trans_lt
      budget.noise_lt
    calc 2 * (|replyPolynomial lwe.nfl.polyDegree (pirParams.n level) coefficient (fun k =>
          amplified lwe.aBits (noise k)
            (if k = pirParams.computeCoordinates chosenElement level then 1 else 0)) i| +
            2 ^ lwe.aBits)
        ≤ 2 * ((pirParams.n level * (lwe.nfl.polyDegree * ((2 ^ lwe.aBits - 1) *
            (2 ^ lwe.aBits * (2 * lwe.noiseUB - 2) + 1))) : ℕ) + 2 ^ lwe.aBits) := by
          linarith only [bound]
      _ < lwe.nfl.moduliProduct := by exact_mod_cast limit
  · intro i i_lt
    have residue := replyPolynomial_modEq lwe.nfl.polyDegree (pirParams.n level) lwe.aBits
      coefficient noise
      (fun k => if k = pirParams.computeCoordinates chosenElement level then 1 else 0) i
    rw [replyPolynomial_selected coordinate_lt (fun _ _ => rfl) i_lt] at residue
    rw [residue]
    exact Int.emod_eq_of_lt (by positivity)
      (by exact_mod_cast coefficient_lt _ coordinate_lt i i_lt)

end Blocks

section Selecting

variable {lwe} {usable : lwe.Usable} {pirParams : PIRParameters} {eltNbr : ℕ}

/-- The bytes of a ciphertext in the noise range decrypt to its coefficients. -/
theorem decryptBytes_eq (usable : lwe.Usable) (absorbs : 2 ^ lwe.aBits ≤ lwe.nfl.moduliProduct)
    {cipher : Poly lwe.nfl.nbModuli × Poly lwe.nfl.nbModuli} {v : ℕ → ℤ}
    (encrypts : lwe.LazilyEncrypts cipher v)
    (small : ∀ i < lwe.nfl.polyDegree, 2 * |v i| < lwe.nfl.moduliProduct) {value : ℕ}
    (value_lt : value < 2 ^ (lwe.nfl.polyDegree * lwe.aBits))
    (low : ∀ i < lwe.nfl.polyDegree,
      v i % 2 ^ lwe.aBits = bitSlice value (i * lwe.aBits) lwe.aBits)
    (recLvl : ℕ) {cipheredData : ℕ → UInt8}
    (stored : ∀ i < (cryptosystem usable).publicParams.ciphertextBytesize,
      cipheredData i = lwe.cipherBytes cipher i) (byte : ℕ) :
    (lwe.decryptBytes recLvl cipheredData byte).toNat = bitSlice value (8 * byte) 8 := by
  rw [ciphertextBytesize_eq] at stored
  rcases encrypts.decrypt_eq absorbs small usable.absorbs_pos usable.short value_lt low
    (Nat.lt_succ_self _) stored with ⟨outdata, runs, bytes⟩
  rw [decryptBytes, runs, Option.getD_some, bytes byte]

/-- Each polynomial made of some buffers carries its own bytes. -/
theorem importPolys_carries (usable : lwe.Usable) {shape : SplitShape}
    (bits_eq : shape.bitsPerChunk = lwe.aBits)
    (fits : (lwe.polyShape usable.moduli_pos).CountersFit shape)
    (few : (lwe.polyShape usable.moduli_pos).polyNumber shape < 2 ^ 32)
    (buffers : ℕ → ℤ → UInt8) :
    ∀ i < (lwe.polyShape usable.moduli_pos).polyNumber shape,
      lwe.Carries (importPolys usable shape buffers i) (lwe.importedBytes shape buffers i) := by
  rcases @deserializeDataNFL_carries lwe usable.moduli_pos shape buffers usable.degree_dvd bits_eq
    (bits_eq.trans_le usable.aBits_le) fits few (importFuel usable shape)
    (by rw [importFuel]; omega) with ⟨polys, runs, carries⟩
  intro i i_lt
  rw [importPolys, runs, Option.getD_some]
  exact carries i i_lt

/-- The polynomials of a level are those of the ciphertexts of the level before. -/
theorem polyNumber_ciphertextShape (usable : lwe.Usable) (bytes level : ℕ) :
    (lwe.polyShape usable.moduli_pos).polyNumber (ciphertextShape usable
        ((cryptosystem usable).publicParams.plaintexts bytes level)) =
      (cryptosystem usable).publicParams.plaintexts bytes (level + 1) := by
  have absorbed_pos : 0 < lwe.absorbedBytes := by
    rw [← absorptionBytesize_eq usable]
    exact (cryptosystem_hasSizes usable).bounds.absorption_pos
  have bits_eq : (cryptosystem usable).publicParams.ciphertextBitsize =
      8 * (cryptosystem usable).publicParams.ciphertextBytesize :=
    (cryptosystem_hasSizes usable).bounds.ciphertext_eq
  have whole := eight_mul_absorbedBytes usable.degree_dvd
  have total : PolyShape.totalBits (ciphertextShape usable
      ((cryptosystem usable).publicParams.plaintexts bytes level)) =
        8 * ((cryptosystem usable).publicParams.plaintexts bytes level *
          (cryptosystem usable).publicParams.ciphertextBytesize) := by
    rw [PolyShape.totalBits, ciphertextShape, PolyShape.ciphertexts_bitsPerBuffer,
      Nat.mul_left_comm, ← bits_eq]
    rfl
  have divisor : (ciphertextShape usable
      ((cryptosystem usable).publicParams.plaintexts bytes level)).bitsPerChunk *
        (lwe.polyShape usable.moduli_pos).polyDegree = 8 * lwe.absorbedBytes := by
    rw [whole, mul_comm]
    rfl
  rw [PolyShape.polyNumber, total, divisor, mul_ceilDiv_mul (by decide : 0 < 8) absorbed_pos,
    ← absorptionBytesize_eq usable]
  rfl

/-- The counters of the imports of all levels suffice for their ciphertexts. -/
def CountersFit (usable : lwe.Usable) (levels bytes : ℕ) : Prop :=
  ∀ level, level + 1 < levels → (lwe.polyShape usable.moduli_pos).CountersFit
    (ciphertextShape usable ((cryptosystem usable).publicParams.plaintexts bytes level))

/-- The cryptosystem selects, and keeps the bytes of its ciphertexts. -/
theorem selecting (configured : Configured lwe) (usable : lwe.Usable)
    (budget : lwe.LeavesBudget eltNbr) (n_le : ∀ level < pirParams.d, pirParams.n level ≤ eltNbr)
    {bytes : ℕ}
    (few : (cryptosystem usable).publicParams.plaintexts bytes (pirParams.d - 1) < 2 ^ 32)
    (fits : CountersFit usable pirParams.d bytes) :
    Selecting pirParams (cryptosystem usable) lwe.encryptElement lwe.Carries
      (fun data query size => lwe.SoundReply size data query) lwe.cipherBytes lwe.decryptBytes
      ((cryptosystem usable).publicParams.plaintexts bytes 0) where
  selects := by
    intro level level_lt coins chosenElement data plain carries sound cipher stored i i_lt
    rcases exists_block configured usable budget (n_le level level_lt) level_lt carries sound with
      ⟨v, encrypts, small, low⟩
    rw [absorptionBytesize_eq usable] at i_lt
    apply UInt8.toNat_inj.mp
    have range : ∀ i < lwe.nfl.polyDegree, 2 * |v i| < lwe.nfl.moduliProduct := by
      intro i i_lt
      have margin : (0 : ℤ) ≤ 2 ^ lwe.aBits := by positivity
      have limit := small i i_lt
      omega
    rw [decryptBytes_eq usable budget.absorbs encrypts range
      (bits_lt_two_pow _ usable.degree_dvd) low _ stored, bitSlice_littleEndian, if_pos i_lt]
  reimports := by
    intro level level_lt ciphers
    have bounds := (cryptosystem_hasSizes usable).bounds
    have level_small : ∀ lower ≤ pirParams.d - 1,
        (cryptosystem usable).publicParams.plaintexts bytes lower < 2 ^ 32 :=
      fun lower lower_le => (bounds.plaintexts_mono _ lower_le).trans_lt few
    have polys := LatticesBasedCryptosystem.levelPolys_eq_plaintexts rfl bounds (level_small level (by omega))
    have next := LatticesBasedCryptosystem.levelPolys_eq_plaintexts rfl bounds
      (level_small (level + 1) (by omega))
    have number := polyNumber_ciphertextShape usable bytes level
    have small := level_small (level + 1) (by omega)
    rw [polys, next]
    let buffers (bufferIndex : ℕ) (pointer : ℤ) : UInt8 :=
      lwe.cipherBytes (ciphers bufferIndex) pointer.toNat
    have carries := importPolys_carries usable rfl (fits level level_lt)
      (by rw [number]; omega) buffers
    rw [number] at carries
    refine ⟨_, carries, ?_⟩
    intro position position_lt
    rw [absorptionBytesize_eq usable, importedBytes, Nat.div_add_mod']
    exact if_pos position_lt

end Selecting

end NFLLWE

end Xpir
