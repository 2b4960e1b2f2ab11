import Xpir.ReplyExtraction.PIRReplyExtraction
import Xpir.ReplyGenerator.ExtractedSizes
import Xpir.ReplyGenerator.Subtraction

/-!
# Retrieval

The client decrypts what the server has computed, level by level. The ciphertexts of a
level lie in the buffer of the plaintexts of the level above, and those of the last level
are the reply. If all numbers of ciphertexts are right and the offsets into the buffers do
not wrap around, then the chunks are those of the chosen element. This needs no more of the
scheme than that it selects one element of each block and keeps the bytes of its ciphertexts.
-/

namespace Xpir

namespace PIRReplyExtraction

section Retrieval

variable {Poly Cipher Coins : Type} [AddCommGroup Poly]

/--
The scheme is ideal, decryption of the bytes of a result gives the bytes of its
plaintext, and the polynomials that some ciphertexts are cut into hold their bytes.
-/
structure Ideal (pirParams : PIRParameters) (crypto : LatticesBasedCryptosystem Poly Cipher)
    (encrypt : Coins → ℕ → ℕ → Cipher) (dec : Cipher → Poly) (cipherBytes : Cipher → ℕ → UInt8)
    (plainBytes : Poly → ℕ → UInt8) (decrypt : ℕ → (ℕ → UInt8) → ℕ → UInt8) (nbPolys : ℕ) :
    Prop where
  homomorphic : LinearlyHomomorphic crypto encrypt dec
  decrypts : ∀ (recLvl : ℕ) (terms : List (Poly × Coins × ℕ)) (data : ℕ → UInt8),
    (∀ i < crypto.publicParams.ciphertextBytesize,
      data i = cipherBytes (sumOfProducts crypto encrypt terms recLvl) i) →
    ∀ i < crypto.publicParams.absorptionBytesize,
      decrypt recLvl data i = plainBytes (dec (sumOfProducts crypto encrypt terms recLvl)) i
  lossless : ∀ level, level + 1 < pirParams.d → ∀ (ciphers : ℕ → Cipher),
    ∀ position < crypto.levelPolys nbPolys level * crypto.publicParams.ciphertextBytesize,
      plainBytes (crypto.deserializeDataNFL ciphers (crypto.levelPolys nbPolys level)
        (position / crypto.publicParams.absorptionBytesize))
          (position % crypto.publicParams.absorptionBytesize) =
        cipherBytes (ciphers (position / crypto.publicParams.ciphertextBytesize))
          (position % crypto.publicParams.ciphertextBytesize)

/-- The chunks that the client extracts are those of the chosen element, in order. -/
def Retrieves (pirParams : PIRParameters) (crypto : LatticesBasedCryptosystem Poly Cipher)
    (cipherBytes : Cipher → ℕ → UInt8) (plainBytes : Poly → ℕ → UInt8)
    (decrypt : ℕ → (ℕ → UInt8) → ℕ → UInt8) (queriesBuf : ℕ → ℕ → Cipher) (chosenElement : ℕ)
    (inputData : ℕ → ℕ → Poly) (nbPolys : ℕ) (aggregatedMaxFileSize : ℤ) : Prop :=
  ∃ fuel final clearChunks,
    crypto.generateReply pirParams fuel queriesBuf inputData nbPolys none = some final ∧
    extractReply crypto.publicParams pirParams decrypt fuel aggregatedMaxFileSize
      ((List.range (crypto.levelPolys nbPolys (pirParams.d - 1))).map fun poly =>
        cipherBytes (LatticesBasedCryptosystem.repliesArray pirParams final poly)) =
          some clearChunks ∧
    Queued crypto.publicParams.absorptionBytesize
      (fun poly => plainBytes (inputData chosenElement poly)) nbPolys clearChunks

variable {pirParams : PIRParameters} {crypto : LatticesBasedCryptosystem Poly Cipher}
  {encrypt : Coins → ℕ → ℕ → Cipher} {dec : Cipher → Poly} {cipherBytes : Cipher → ℕ → UInt8}
  {plainBytes : Poly → ℕ → UInt8} {decrypt : ℕ → (ℕ → UInt8) → ℕ → UInt8}
  {coins : ℕ → ℕ → Coins} {chosenElement nbPolys : ℕ} {inputData : ℕ → ℕ → Poly}

/-- The chosen element is retrieved with every ideal scheme, by every client, from every database. -/
def RetrievesAll (params : PublicParameters) (pirParams : PIRParameters) (bytes : ℕ) : Prop :=
  ∀ {Poly Cipher Coins : Type} [AddCommGroup Poly] (crypto : LatticesBasedCryptosystem Poly Cipher)
    (encrypt : Coins → ℕ → ℕ → Cipher) (dec : Cipher → Poly) (cipherBytes : Cipher → ℕ → UInt8)
    (plainBytes : Poly → ℕ → UInt8) (decrypt : ℕ → (ℕ → UInt8) → ℕ → UInt8),
    crypto.publicParams = params →
    Ideal pirParams crypto encrypt dec cipherBytes plainBytes decrypt
      (params.plaintexts bytes 0) →
    ∀ (coins : ℕ → ℕ → Coins) (chosenElement : ℕ), chosenElement < pirParams.nbElements 0 →
    ∀ (inputData : ℕ → ℕ → Poly) (initial : ℕ → ℕ → Cipher),
      Retrieves pirParams crypto cipherBytes plainBytes decrypt
        ((pirParams.generateQuery encrypt coins chosenElement).foldl pirParams.pushQuery
          ⟨initial, 0, 0⟩).queriesBuf chosenElement inputData (params.plaintexts bytes 0)
        (toInt bytes)

/-- The offsets into the buffers of all levels are less than `2 ^ 32`. -/
def OffsetsFit (params : PublicParameters) (levels bytes : ℕ) : Prop :=
  ∀ level < levels, 0 < level →
    (params.plaintexts bytes level - 1) * params.absorptionBytesize < 2 ^ 32

/-- What the loop over the levels finds, and leaves, before a level. -/
def BeforeLevel (params : PublicParameters) (pirParams : PIRParameters)
    (ciphertexts : ℕ → ℕ → ℕ → UInt8) (chunks : ℕ → ℕ → UInt8) (bytes done : ℕ)
    (state : LevelState) : Prop :=
  if done < pirParams.d then
    Supplies params pirParams (pirParams.d - done) state (ciphertexts (pirParams.d - 1 - done))
      (params.plaintexts bytes (pirParams.d - 1 - done)) ∧ state.clearChunks = []
  else Queued params.absorptionBytesize chunks (params.plaintexts bytes 0) state.clearChunks

/-- The ciphertexts of a level lie in the buffer that holds the plaintexts of the level above. -/
theorem supplies_of_written {params : PublicParameters} (bounds : params.SizeBounds)
    {recLvl bytes : ℕ} (recLvl_pos : 0 < recLvl) (recLvl_lt : recLvl < pirParams.d)
    {state : LevelState} {plaintexts ciphertexts : ℕ → ℕ → UInt8}
    (fits : (params.plaintexts bytes recLvl - 1) * params.absorptionBytesize < 2 ^ 32)
    (size_eq : state.inData.size = params.absorptionBytesize * params.plaintexts bytes recLvl)
    (written : Written params.absorptionBytesize plaintexts (params.plaintexts bytes recLvl)
      state.inData.bytes)
    (same : ∀ position < params.plaintexts bytes (recLvl - 1) * params.ciphertextBytesize,
      plaintexts (position / params.absorptionBytesize) (position % params.absorptionBytesize) =
        ciphertexts (position / params.ciphertextBytesize)
          (position % params.ciphertextBytesize)) :
    Supplies params pirParams recLvl state ciphertexts (params.plaintexts bytes (recLvl - 1)) := by
  intro j j_lt
  have larger := bounds.absorption_le
  have inside : params.plaintexts bytes (recLvl - 1) * params.ciphertextBytesize ≤
      params.absorptionBytesize * params.plaintexts bytes recLvl := by
    have level_eq : params.plaintexts bytes recLvl = params.plaintexts bytes (recLvl - 1) *
        params.ciphertextBytesize ⌈/⌉ params.absorptionBytesize := by
      rw [← Nat.sub_add_cancel recLvl_pos]
      rfl
    rw [level_eq]
    exact (ceilDiv_le_iff_le_mul bounds.absorption_pos).mp le_rfl
  have end_le : j * params.ciphertextBytesize + params.ciphertextBytesize ≤
      params.plaintexts bytes (recLvl - 1) * params.ciphertextBytesize := by
    rw [← Nat.succ_mul]
    exact Nat.mul_le_mul_right _ j_lt
  have offset_eq : j * params.ciphertextBytesize % 2 ^ 32 = j * params.ciphertextBytesize := by
    apply Nat.mod_eq_of_lt
    rw [Nat.sub_one_mul, Nat.mul_comm] at fits
    omega
  refine ⟨fun i => state.inData.bytes (j * params.ciphertextBytesize + i), ?_, ?_⟩
  · rw [nextCiphertext_of_ne _ _ recLvl_lt.ne, offset_eq, if_pos (by omega), remaining, remaining,
      if_neg recLvl_lt.ne, if_neg recLvl_lt.ne]
  · intro i i_lt
    have position_lt : j * params.ciphertextBytesize + i <
        params.plaintexts bytes (recLvl - 1) * params.ciphertextBytesize := by omega
    have quotient : (j * params.ciphertextBytesize + i) / params.ciphertextBytesize = j := by
      rw [Nat.mul_comm, Nat.mul_add_div (by omega), Nat.div_eq_of_lt i_lt, Nat.add_zero]
    have remainder : (j * params.ciphertextBytesize + i) % params.ciphertextBytesize = i := by
      rw [Nat.mul_comm, Nat.mul_add_mod, Nat.mod_eq_of_lt i_lt]
    dsimp only
    rw [written _ (by omega), same _ position_lt, quotient, remainder]

/-- The replies are there for the loop over the last level. -/
theorem supplies_replies (params : PublicParameters) (pirParams : PIRParameters) (count : ℕ)
    (ciphertexts : ℕ → ℕ → UInt8) (inData : Allocation) :
    Supplies params pirParams pirParams.d
      { repliesBuffer := (List.range count).map ciphertexts
        inData := inData
        clearChunks := [] } ciphertexts count := by
  intro j j_lt
  refine ⟨ciphertexts j, ?_, fun i _ => rfl⟩
  have inside : j < ((List.range count).map ciphertexts).length := by
    rw [List.length_map, List.length_range]
    exact j_lt
  dsimp only
  rw [remaining, remaining, if_pos rfl, if_pos rfl, List.drop_eq_getElem_cons inside,
    nextCiphertext_d, List.getElem_map, List.getElem_range]

end Retrieval

section Selection

variable {Poly Cipher Coins : Type}

/--
Decrypting a block of elements that has been absorbed with a query gives the bytes of the chosen
one, provided that the sum is in range. Ciphertexts that are imported again keep their bytes.
-/
structure Selecting (pirParams : PIRParameters) (crypto : LatticesBasedCryptosystem Poly Cipher)
    (encrypt : Coins → ℕ → ℕ → Cipher) (represents : Poly → (ℕ → UInt8) → Prop)
    (inRange : (ℕ → Poly) → (ℕ → Cipher) → ℕ → Prop) (cipherBytes : Cipher → ℕ → UInt8)
    (decrypt : ℕ → (ℕ → UInt8) → ℕ → UInt8) (nbPolys : ℕ) : Prop where
  selects : ∀ level < pirParams.d, ∀ (coins : ℕ → ℕ → Coins) (chosenElement : ℕ)
    (data : ℕ → Poly) (plain : ℕ → ℕ → UInt8),
    (∀ k < pirParams.n level, represents (data k) (plain k)) →
    inRange data (pirParams.queryElement encrypt coins chosenElement level) (pirParams.n level) →
    ∀ cipher : ℕ → UInt8,
      (∀ i < crypto.publicParams.ciphertextBytesize,
        cipher i = cipherBytes (crypto.absorbed (pirParams.n level) data
          (pirParams.queryElement encrypt coins chosenElement level) none) i) →
      ∀ i < crypto.publicParams.absorptionBytesize,
        decrypt (level + 1) cipher i = plain (pirParams.computeCoordinates chosenElement level) i
  reimports : ∀ level, level + 1 < pirParams.d → ∀ ciphers : ℕ → Cipher,
    ∃ plain : ℕ → ℕ → UInt8,
      (∀ poly < crypto.levelPolys nbPolys (level + 1), represents
        (crypto.deserializeDataNFL ciphers (crypto.levelPolys nbPolys level) poly) (plain poly)) ∧
      ∀ position < crypto.levelPolys nbPolys level * crypto.publicParams.ciphertextBytesize,
        plain (position / crypto.publicParams.absorptionBytesize)
            (position % crypto.publicParams.absorptionBytesize) =
          cipherBytes (ciphers (position / crypto.publicParams.ciphertextBytesize))
            (position % crypto.publicParams.ciphertextBytesize)

/--
The chunks that the client extracts are the given ones, in order. The rounds have as much
fuel as their counters have values.
-/
def RetrievesChunks (pirParams : PIRParameters) (crypto : LatticesBasedCryptosystem Poly Cipher)
    (cipherBytes : Cipher → ℕ → UInt8) (decrypt : ℕ → (ℕ → UInt8) → ℕ → UInt8)
    (queriesBuf : ℕ → ℕ → Cipher) (inputData : ℕ → ℕ → Poly) (nbPolys : ℕ)
    (subtract : Option (ℕ → Cipher)) (aggregatedMaxFileSize : ℤ) (chunks : ℕ → ℕ → UInt8) : Prop :=
  ∃ final clearChunks,
    crypto.generateReply pirParams (2 ^ 32) queriesBuf inputData nbPolys subtract = some final ∧
    extractReply crypto.publicParams pirParams decrypt (2 ^ 32) aggregatedMaxFileSize
      ((List.range (crypto.levelPolys nbPolys (pirParams.d - 1))).map fun poly =>
        cipherBytes (LatticesBasedCryptosystem.repliesArray pirParams final poly)) =
          some clearChunks ∧
    Queued crypto.publicParams.absorptionBytesize chunks nbPolys clearChunks

variable {pirParams : PIRParameters} {crypto : LatticesBasedCryptosystem Poly Cipher}
  {encrypt : Coins → ℕ → ℕ → Cipher} {represents : Poly → (ℕ → UInt8) → Prop}
  {inRange : (ℕ → Poly) → (ℕ → Cipher) → ℕ → Prop} {cipherBytes : Cipher → ℕ → UInt8}
  {decrypt : ℕ → (ℕ → UInt8) → ℕ → UInt8} {coins : ℕ → ℕ → Coins} {chosenElement nbPolys : ℕ}
  {inputData : ℕ → ℕ → Poly} {subtract : Option (ℕ → Cipher)}

/-- What the client decrypts at a level, as long as it is given the ciphertexts of the level. -/
structure LevelChunks (pirParams : PIRParameters) (crypto : LatticesBasedCryptosystem Poly Cipher)
    (cipherBytes : Cipher → ℕ → UInt8) (decrypt : ℕ → (ℕ → UInt8) → ℕ → UInt8) (nbPolys : ℕ)
    (interReply : ℕ → ℕ → ℕ → Cipher) (chosenElement : ℕ) (outcome : ℕ → ℕ → UInt8) (level : ℕ)
    (chunks : ℕ → ℕ → UInt8) : Prop where
  decrypts : ∀ poly < crypto.levelPolys nbPolys level, ∀ data : ℕ → UInt8,
    (∀ i < crypto.publicParams.ciphertextBytesize, data i = cipherBytes
      (interReply level (pirParams.chosenAt chosenElement (level + 1)) poly) i) →
    ∀ i < crypto.publicParams.absorptionBytesize, decrypt (level + 1) data i = chunks poly i
  first : level = 0 → chunks = outcome
  later : ∀ lower, level = lower + 1 → ∀ position <
    crypto.levelPolys nbPolys lower * crypto.publicParams.ciphertextBytesize,
      chunks (position / crypto.publicParams.absorptionBytesize)
          (position % crypto.publicParams.absorptionBytesize) =
        cipherBytes (interReply lower (pirParams.chosenAt chosenElement level)
            (position / crypto.publicParams.ciphertextBytesize))
          (position % crypto.publicParams.ciphertextBytesize)

/-- The first level gives the outcome, each later one the ciphertexts of the level before. -/
theorem Selecting.exists_levelChunks
    (selecting : Selecting pirParams crypto encrypt represents inRange cipherBytes decrypt nbPolys)
    (rounds : LatticesBasedCryptosystem.RoundsFit pirParams)
    {buffer : PIRParameters.QueriesBuffer Cipher}
    (received : pirParams.Received (pirParams.queryElement encrypt coins chosenElement) pirParams.d 0
      buffer) (inside : chosenElement < pirParams.nbElements 0) {fuel : ℕ}
    {final : LatticesBasedCryptosystem.ReplyState Poly Cipher}
    (returns : crypto.generateReply pirParams fuel buffer.queriesBuf inputData nbPolys subtract =
      some final) {outcome : ℕ → ℕ → UInt8}
    (first : ∀ poly < nbPolys, ∀ data : ℕ → UInt8,
      (∀ i < crypto.publicParams.ciphertextBytesize, data i = cipherBytes
        (crypto.absorbed (pirParams.n 0)
          (fun k => inputData (pirParams.n 0 * pirParams.chosenAt chosenElement 1 + k) poly)
          (pirParams.queryElement encrypt coins chosenElement 0)
          (subtract.map fun request => request poly)) i) →
      ∀ i < crypto.publicParams.absorptionBytesize, decrypt 1 data i = outcome poly i)
    {level : ℕ} (level_lt : level < pirParams.d)
    (ranges : 0 < level → ∀ poly < crypto.levelPolys nbPolys level,
      inRange (fun k => crypto.levelData inputData nbPolys final.interReply level
          (pirParams.n level * pirParams.chosenAt chosenElement (level + 1) + k) poly)
        (pirParams.queryElement encrypt coins chosenElement level) (pirParams.n level)) :
    ∃ chunks, LevelChunks pirParams crypto cipherBytes decrypt nbPolys final.interReply
      chosenElement outcome level chunks := by
  have holds := LatticesBasedCryptosystem.levels_of_generateReply returns
  have chosen_lt := pirParams.chosenAt_lt inside (Nat.succ_le_of_lt level_lt)
  have absorbed : ∀ poly < crypto.levelPolys nbPolys level,
      final.interReply level (pirParams.chosenAt chosenElement (level + 1)) poly =
        crypto.absorbed (pirParams.n level) (fun k => crypto.levelData inputData nbPolys
          final.interReply level
            (pirParams.n level * pirParams.chosenAt chosenElement (level + 1) + k) poly)
          (pirParams.queryElement encrypt coins chosenElement level)
          (if level = 0 then subtract.map (fun request => request poly) else none) := by
    intro poly poly_lt
    exact LatticesBasedCryptosystem.eq_absorbed (pirParams.n_pos level level_lt)
      (rounds level level_lt) (holds.absorb_received received level_lt chosen_lt poly_lt)
  cases level with
  | zero =>
      refine ⟨outcome, ?_, fun _ => rfl, ?_⟩
      · intro poly poly_lt data data_eq
        rw [absorbed poly poly_lt] at data_eq
        exact first poly poly_lt data data_eq
      · intro lower impossible
        exact absurd impossible.symm (Nat.succ_ne_zero lower)
  | succ level =>
      choose contents represented keeps using fun element =>
        selecting.reimports level level_lt (final.interReply level element)
      refine ⟨contents (pirParams.chosenAt chosenElement (level + 1)), ?_, ?_, ?_⟩
      · intro poly poly_lt data data_eq
        rw [absorbed poly poly_lt] at data_eq
        have decrypted := selecting.selects (level + 1) level_lt coins chosenElement _
          (fun k => contents (pirParams.n (level + 1) *
            pirParams.chosenAt chosenElement (level + 1 + 1) + k) poly)
          (fun k _ => represented _ poly poly_lt)
          (ranges (Nat.succ_pos level) poly poly_lt) data data_eq
        rw [pirParams.chosenAt_eq _ level_lt] at decrypted
        exact decrypted
      · intro impossible
        exact absurd impossible (Nat.succ_ne_zero level)
      · intro lower lower_eq
        obtain rfl := Nat.succ.inj lower_eq
        exact keeps _

/-- A level is extracted, which leaves the ciphertexts of the level below or the outcome. -/
theorem BeforeLevel.step {params : PublicParameters} (same : crypto.publicParams = params)
    (bounds : params.SizeBounds) {bytes level done : ℕ} (d_eq : pirParams.d = done + level + 1)
    (number : params.ciphertextNbr (level + 1) (toInt bytes) = some (params.plaintexts bytes level))
    (polys : ∀ lower ≤ level,
      crypto.levelPolys (params.plaintexts bytes 0) lower = params.plaintexts bytes lower)
    (number_lt : params.plaintexts bytes level < 2 ^ 32)
    (offsets : OffsetsFit params pirParams.d bytes) {interReply : ℕ → ℕ → ℕ → Cipher}
    {outcome chunks : ℕ → ℕ → UInt8}
    (levelChunks : LevelChunks pirParams crypto cipherBytes decrypt (params.plaintexts bytes 0)
      interReply chosenElement outcome level chunks) {state : LevelState}
    (before : BeforeLevel params pirParams (fun level j => cipherBytes (interReply level
      (pirParams.chosenAt chosenElement (level + 1)) j)) outcome bytes done state) :
    ∃ next, extractLevel params pirParams decrypt (2 ^ 32) (toInt bytes) (pirParams.d - done)
        state = some next ∧
      BeforeLevel params pirParams (fun level j => cipherBytes (interReply level
        (pirParams.chosenAt chosenElement (level + 1)) j)) outcome bytes (done + 1) next := by
  have recLvl_eq : pirParams.d - done = level + 1 := by omega
  have before_eq : pirParams.d - 1 - done = level := by omega
  rw [BeforeLevel, if_pos (by omega), before_eq, recLvl_eq] at before
  rcases before with ⟨supplies, empty⟩
  have offset_lt : 0 < level → ∀ j < params.plaintexts bytes level,
      params.absorptionBytesize * j < 2 ^ 32 := by
    intro deeper j j_lt
    rw [Nat.mul_comm]
    exact (Nat.mul_le_mul_right _ (Nat.le_sub_one_of_lt j_lt)).trans_lt
      (offsets level (by omega) deeper)
  have decrypts : ∀ j < params.plaintexts bytes level, ∀ data : ℕ → UInt8,
      (∀ i < params.ciphertextBytesize, data i = cipherBytes
        (interReply level (pirParams.chosenAt chosenElement (level + 1)) j) i) →
      ∀ i < params.absorptionBytesize, decrypt (level + 1) data i = chunks j i := by
    intro j j_lt data data_eq
    have decrypted := levelChunks.decrypts j (by rw [polys level le_rfl]; exact j_lt) data
    rw [same] at decrypted
    exact decrypted data_eq
  rcases extractLevel_eq supplies number number_lt number_lt
    (fun deeper => offset_lt (by omega)) decrypts empty with ⟨next, next_eq, after⟩
  refine ⟨next, recLvl_eq ▸ next_eq, ?_⟩
  cases level with
  | zero =>
      rw [if_neg (lt_irrefl 1), levelChunks.first rfl] at after
      rw [BeforeLevel, if_neg (by omega)]
      exact after
  | succ level =>
      rw [if_pos (by omega)] at after
      rcases after with ⟨size_eq, written, cleared⟩
      have next_level : pirParams.d - (done + 1) = level + 1 := by omega
      have next_before : pirParams.d - 1 - (done + 1) = level := by omega
      have lossless := levelChunks.later level rfl
      rw [same, polys level (Nat.le_succ level)] at lossless
      rw [BeforeLevel, if_pos (by omega), next_level, next_before]
      exact ⟨supplies_of_written bounds (Nat.succ_pos level) (by omega)
        (offsets (level + 1) (by omega) (Nat.succ_pos level)) size_eq written lossless, cleared⟩

/--
If all counters and offsets are right, then the chunks that are extracted are what the first
level decrypts to, with a request subtracted from it or not.
-/
theorem Selecting.retrieves_outcome {params : PublicParameters} (same : crypto.publicParams = params)
    (bounds : params.SizeBounds) {bytes : ℕ} (bytes_pos : 0 < bytes)
    (few : params.plaintexts bytes (pirParams.d - 1) < 2 ^ 32)
    (selecting : Selecting pirParams crypto encrypt represents inRange cipherBytes decrypt
      (params.plaintexts bytes 0))
    (rounds : LatticesBasedCryptosystem.RoundsFit pirParams)
    (keeps : params.KeepsChunks pirParams.d bytes)
    (offsets : OffsetsFit params pirParams.d bytes)
    {buffer : PIRParameters.QueriesBuffer Cipher}
    (received : pirParams.Received (pirParams.queryElement encrypt coins chosenElement) pirParams.d 0
      buffer) (inside : chosenElement < pirParams.nbElements 0) {outcome : ℕ → ℕ → UInt8}
    (first : ∀ poly < params.plaintexts bytes 0, ∀ data : ℕ → UInt8,
      (∀ i < params.ciphertextBytesize, data i = cipherBytes
        (crypto.absorbed (pirParams.n 0)
          (fun k => inputData (pirParams.n 0 * pirParams.chosenAt chosenElement 1 + k) poly)
          (pirParams.queryElement encrypt coins chosenElement 0)
          (subtract.map fun request => request poly)) i) →
      ∀ i < params.absorptionBytesize, decrypt 1 data i = outcome poly i)
    (ranges : ∀ final, crypto.generateReply pirParams (2 ^ 32) buffer.queriesBuf inputData
      (params.plaintexts bytes 0) subtract = some final →
        ∀ level < pirParams.d, 0 < level → ∀ poly < params.plaintexts bytes level,
          inRange (fun k => crypto.levelData inputData (params.plaintexts bytes 0)
              final.interReply level
              (pirParams.n level * pirParams.chosenAt chosenElement (level + 1) + k) poly)
            (pirParams.queryElement encrypt coins chosenElement level) (pirParams.n level)) :
    RetrievesChunks pirParams crypto cipherBytes decrypt buffer.queriesBuf inputData
      (params.plaintexts bytes 0) subtract (toInt bytes) outcome := by
  rcases LatticesBasedCryptosystem.exists_generateReply crypto buffer.queriesBuf inputData
    (params.plaintexts bytes 0) subtract rounds pirParams.n_lt with ⟨final, returns⟩
  have level_lt : ∀ level ≤ pirParams.d - 1, params.plaintexts bytes level < 2 ^ 32 :=
    fun level level_le => (bounds.plaintexts_mono _ level_le).trans_lt few
  have polys : ∀ level ≤ pirParams.d - 1,
      crypto.levelPolys (params.plaintexts bytes 0) level = params.plaintexts bytes level :=
    fun level level_le => LatticesBasedCryptosystem.levelPolys_eq_plaintexts same bounds
      (level_lt level level_le)
  have d_pos := pirParams.d_pos
  have numbers : ∀ recLvl ≤ pirParams.d, 0 < recLvl →
      params.ciphertextNbr recLvl (toInt bytes) = some (params.plaintexts bytes (recLvl - 1)) := by
    intro recLvl recLvl_le recLvl_pos
    exact bounds.ciphertextNbr_of_keepsChunks bytes_pos keeps recLvl_pos recLvl_le
      (level_lt _ (by omega))
  have run := forLoop_induction pirParams.d
    (fun count state => Option.bind state
      (extractLevel params pirParams decrypt (2 ^ 32) (toInt bytes) (pirParams.d - count)))
    (some { repliesBuffer := (List.range (crypto.levelPolys (params.plaintexts bytes 0)
              (pirParams.d - 1))).map fun poly =>
                cipherBytes (LatticesBasedCryptosystem.repliesArray pirParams final poly)
            inData := ⟨0, fun _ => 0⟩
            clearChunks := [] })
    (fun done reached => ∃ state, reached = some state ∧
      BeforeLevel params pirParams (fun level j => cipherBytes (final.interReply level
        (pirParams.chosenAt chosenElement (level + 1)) j)) outcome bytes done state)
    ?_ ?_
  · rcases run with ⟨state, runs, after⟩
    rw [BeforeLevel, if_neg (lt_irrefl _)] at after
    refine ⟨final, state.clearChunks, returns, ?_, ?_⟩
    · rw [same, extractReply, runs, Option.map_some]
    · rw [same]
      exact after
  · refine ⟨_, rfl, ?_⟩
    rw [BeforeLevel, if_pos d_pos]
    refine ⟨?_, rfl⟩
    rw [polys _ (by omega), Nat.sub_zero, Nat.sub_zero, Nat.sub_add_cancel d_pos,
      pirParams.chosenAt_d inside]
    exact supplies_replies _ _ _ _ _
  · rintro done _ done_lt ⟨state, rfl, before⟩
    rcases Nat.exists_eq_add_of_lt done_lt with ⟨level, d_eq⟩
    have below : level < pirParams.d := by omega
    have number := numbers (level + 1) below (Nat.succ_pos level)
    rw [Nat.add_sub_cancel] at number
    rcases selecting.exists_levelChunks rounds received inside returns
      (by rw [same]; exact first) below
      (by
        intro later poly poly_lt
        rw [polys level (by omega)] at poly_lt
        exact ranges final returns level below later poly poly_lt)
      with ⟨chunks, levelChunks⟩
    exact before.step same bounds d_eq number (fun lower lower_le => polys lower (by omega))
      (level_lt level (by omega)) offsets levelChunks

/-- Without a request, the chunks of the chosen element are extracted. -/
theorem Selecting.retrieves {params : PublicParameters} (same : crypto.publicParams = params)
    (bounds : params.SizeBounds) {bytes : ℕ} (bytes_pos : 0 < bytes)
    (few : params.plaintexts bytes (pirParams.d - 1) < 2 ^ 32)
    (selecting : Selecting pirParams crypto encrypt represents inRange cipherBytes decrypt
      (params.plaintexts bytes 0))
    (rounds : LatticesBasedCryptosystem.RoundsFit pirParams)
    (keeps : params.KeepsChunks pirParams.d bytes)
    (offsets : OffsetsFit params pirParams.d bytes)
    {buffer : PIRParameters.QueriesBuffer Cipher}
    (received : pirParams.Received (pirParams.queryElement encrypt coins chosenElement) pirParams.d 0
      buffer) (inside : chosenElement < pirParams.nbElements 0) {plain : ℕ → ℕ → ℕ → UInt8}
    (imported : ∀ element < pirParams.nbElements 0, ∀ poly < params.plaintexts bytes 0,
      represents (inputData element poly) (plain element poly))
    (ranges : ∀ final, crypto.generateReply pirParams (2 ^ 32) buffer.queriesBuf inputData
      (params.plaintexts bytes 0) none = some final →
        ∀ level < pirParams.d, ∀ poly < params.plaintexts bytes level,
          inRange (fun k => crypto.levelData inputData (params.plaintexts bytes 0)
              final.interReply level
              (pirParams.n level * pirParams.chosenAt chosenElement (level + 1) + k) poly)
            (pirParams.queryElement encrypt coins chosenElement level) (pirParams.n level)) :
    RetrievesChunks pirParams crypto cipherBytes decrypt buffer.queriesBuf inputData
      (params.plaintexts bytes 0) none (toInt bytes) (plain chosenElement) := by
  rcases LatticesBasedCryptosystem.exists_generateReply crypto buffer.queriesBuf inputData
    (params.plaintexts bytes 0) none rounds pirParams.n_lt with ⟨final, returns⟩
  have d_pos := pirParams.d_pos
  have chosen_lt := pirParams.chosenAt_lt inside (Nat.succ_le_of_lt d_pos)
  refine selecting.retrieves_outcome same bounds bytes_pos few rounds keeps offsets received inside
    ?_ (fun final returns level level_lt _ => ranges final returns level level_lt)
  intro poly poly_lt data data_eq
  rw [← same] at data_eq ⊢
  have decrypted := selecting.selects 0 d_pos coins chosenElement _
    (fun k => plain (pirParams.n 0 * pirParams.chosenAt chosenElement 1 + k) poly)
    (fun k k_lt => imported _
      (LatticesBasedCryptosystem.index_lt d_pos chosen_lt k_lt) poly poly_lt)
    (ranges final returns 0 d_pos poly poly_lt) data data_eq
  rw [pirParams.chosenAt_eq _ d_pos] at decrypted
  exact decrypted

end Selection

section Retrieval

variable {Poly Cipher Coins : Type} [AddCommGroup Poly] {pirParams : PIRParameters}
  {crypto : LatticesBasedCryptosystem Poly Cipher} {encrypt : Coins → ℕ → ℕ → Cipher}
  {dec : Cipher → Poly} {cipherBytes : Cipher → ℕ → UInt8} {plainBytes : Poly → ℕ → UInt8}
  {decrypt : ℕ → (ℕ → UInt8) → ℕ → UInt8} {coins : ℕ → ℕ → Coins} {chosenElement nbPolys : ℕ}
  {inputData : ℕ → ℕ → Poly}

/-- With an ideal scheme every sum is in range. -/
theorem Ideal.selecting
    (ideal : Ideal pirParams crypto encrypt dec cipherBytes plainBytes decrypt nbPolys) :
    Selecting pirParams crypto encrypt
      (fun poly plain => ∀ i < crypto.publicParams.absorptionBytesize,
        plainBytes poly i = plain i)
      (fun _ _ _ => True) cipherBytes decrypt nbPolys where
  selects := by
    intro level level_lt coins chosenElement data plain represents _ cipher cipher_eq i i_lt
    have sum : crypto.absorbed (pirParams.n level) data
        (pirParams.queryElement encrypt coins chosenElement level) none =
          sumOfProducts crypto encrypt (queryTerms pirParams coins chosenElement level data
            (List.range (pirParams.n level))) (level + 1) := by
      rw [← absorbList_queryElement, ← LatticesBasedCryptosystem.absorbRange_zero]
      rfl
    rw [sum] at cipher_eq
    rw [ideal.decrypts _ _ cipher cipher_eq i i_lt,
      ideal.homomorphic.dec_queryTerms coins chosenElement level_lt data]
    exact represents _ (pirParams.computeCoordinates_lt chosenElement level_lt) i i_lt
  reimports := by
    intro level level_lt ciphers
    exact ⟨fun poly => plainBytes (crypto.deserializeDataNFL ciphers
      (crypto.levelPolys nbPolys level) poly), fun _ _ _ _ => rfl,
      ideal.lossless level level_lt ciphers⟩

/-- The chunks of the chosen element are extracted if all counters and offsets are right. -/
theorem retrieves_of_fits {params : PublicParameters} (same : crypto.publicParams = params)
    (bounds : params.SizeBounds) {bytes : ℕ} (bytes_pos : 0 < bytes)
    (few : params.plaintexts bytes (pirParams.d - 1) < 2 ^ 32)
    (ideal : Ideal pirParams crypto encrypt dec cipherBytes plainBytes decrypt
      (params.plaintexts bytes 0))
    (rounds : LatticesBasedCryptosystem.RoundsFit pirParams)
    (keeps : params.KeepsChunks pirParams.d bytes)
    (offsets : OffsetsFit params pirParams.d bytes)
    {buffer : PIRParameters.QueriesBuffer Cipher}
    (received : pirParams.Received (pirParams.queryElement encrypt coins chosenElement) pirParams.d 0
      buffer) (inside : chosenElement < pirParams.nbElements 0) :
    Retrieves pirParams crypto cipherBytes plainBytes decrypt buffer.queriesBuf chosenElement
      inputData (params.plaintexts bytes 0) (toInt bytes) := by
  let plain : ℕ → ℕ → ℕ → UInt8 := fun element poly => plainBytes (inputData element poly)
  have imported : ∀ element < pirParams.nbElements 0, ∀ poly < params.plaintexts bytes 0,
      ∀ i < crypto.publicParams.absorptionBytesize,
        plainBytes (inputData element poly) i = plain element poly i :=
    fun _ _ _ _ _ _ => rfl
  have retrieved : RetrievesChunks pirParams crypto cipherBytes decrypt buffer.queriesBuf inputData
      (params.plaintexts bytes 0) none (toInt bytes) (plain chosenElement) :=
    Selecting.retrieves same bounds bytes_pos few ideal.selecting rounds keeps offsets received
      inside imported (fun _ _ _ _ _ _ => trivial)
  exact ⟨2 ^ 32, retrieved⟩

end Retrieval

end PIRReplyExtraction

end Xpir
