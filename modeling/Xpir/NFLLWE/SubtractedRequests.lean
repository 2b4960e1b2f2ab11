import Xpir.NFLLWE.Retrieval

/-!
# Requests that are subtracted

The client sends a request with its queries, one byte of it to a coefficient. The server
subtracts it from what it selects at the first level, and the client extracts the
differences of all coefficients. A chunk is zero exactly if the chosen element has the
coefficients of the request there.
-/

namespace Xpir

open NFLlib PIRReplyExtraction

namespace NFLLWE

section Subtraction

variable {lwe : NFLLWE} {usable : lwe.Usable} {pirParams : PIRParameters} {eltNbr bytes : ℕ}
  {coins : ℕ → ℕ → Coins lwe.nfl.nbModuli} {chosenElement : ℕ}
  {initial : ℕ → ℕ → Poly lwe.nfl.nbModuli × Poly lwe.nfl.nbModuli}
  {database : ℕ → ℕ → UInt8} {inputData : ℕ → ℕ → Poly lwe.nfl.nbModuli} {request : ℕ → ℕ → ℕ}
  {subtract : ℕ → Poly lwe.nfl.nbModuli × Poly lwe.nfl.nbModuli}

/-- A coefficient of an element of the database. -/
def elementCoefficient (lwe : NFLLWE) (bytes : ℕ) (memory : ℕ → UInt8) (poly i : ℕ) : ℕ :=
  bitSlice (littleEndian (paddedChunks lwe.absorbedBytes bytes memory poly) lwe.absorbedBytes)
    (i * lwe.aBits) lwe.aBits

/-- A coefficient of an element less one of the request. -/
def differenceCoefficient (lwe : NFLLWE) (bytes : ℕ) (memory : ℕ → UInt8) (request : ℕ → ℕ → ℕ)
    (poly i : ℕ) : ℕ :=
  (((elementCoefficient lwe bytes memory poly i : ℤ) - request poly i) % 2 ^ lwe.aBits).toNat

/-- The chunks of which the coefficients are the differences. -/
def differenceChunks (lwe : NFLLWE) (bytes : ℕ) (memory : ℕ → UInt8) (request : ℕ → ℕ → ℕ)
    (poly byte : ℕ) : UInt8 :=
  UInt8.ofNat (bitSlice (concatenate lwe.aBits (differenceCoefficient lwe bytes memory request poly)
    lwe.nfl.polyDegree) (8 * byte) 8)

/-- A byte of a request, with zeros behind the last one. -/
def requestByte (degree nbCoef : ℕ) (data : ℕ → UInt8) (poly i : ℕ) : ℕ :=
  if poly * degree + i < nbCoef then (data (poly * degree + i)).toNat else 0

/-- The ciphertexts that `encryptsub` makes of a request, each with coins of its own. -/
def sentRequest (usable : lwe.Usable) (requestCoins : ℕ → Coins lwe.nfl.nbModuli)
    (data : ℕ → UInt8) (nbCoef : UInt32) :
    Option (ℕ → Poly lwe.nfl.nbModuli × Poly lwe.nfl.nbModuli) :=
  ((lwe.polyShape usable.moduli_pos).encryptsub data id 1 nbCoef).map fun messages poly =>
    lwe.enc (fun cm i => messages.getD poly (fun _ => 0) (cm * lwe.nfl.polyDegree + i))
      (requestCoins poly).noise (requestCoins poly).uniform

/-- Each ciphertext of a request encrypts a byte in each coefficient. -/
theorem exists_sentRequest (configured : Configured lwe) (usable : lwe.Usable)
    (requestCoins : ℕ → Coins lwe.nfl.nbModuli) (data : ℕ → UInt8) {nbCoef : UInt32}
    (count_lt : (lwe.polyShape usable.moduli_pos).requestCount nbCoef < 2 ^ 31) :
    ∃ request, sentRequest usable requestCoins data nbCoef = some request ∧
      ∀ poly < (lwe.polyShape usable.moduli_pos).requestCount nbCoef, lwe.Encrypts (request poly)
        (fun i => requestByte lwe.nfl.polyDegree nbCoef.toNat data poly i) := by
  have encrypted := (PolyShape.encryptsub_eq_some data).mpr
    ⟨count_lt, (rfl : (List.range ((lwe.polyShape usable.moduli_pos).requestCount nbCoef)).map
      (fun l => (lwe.polyShape usable.moduli_pos).requestMessage data 1 nbCoef.toNat l) = _)⟩
  refine ⟨_, by rw [sentRequest, encrypted, Option.map_some], ?_⟩
  intro poly poly_lt
  have words : ∀ cm : Fin lwe.nfl.nbModuli, ∀ i < lwe.nfl.polyDegree,
      ((List.range ((lwe.polyShape usable.moduli_pos).requestCount nbCoef)).map
        (fun l => (lwe.polyShape usable.moduli_pos).requestMessage data 1 nbCoef.toNat l)).getD poly
          (fun _ => 0) (cm * lwe.nfl.polyDegree + i) =
        requestByte lwe.nfl.polyDegree nbCoef.toNat data poly i := by
    intro cm i i_lt
    rw [List.getD_eq_getElem?_getD, List.getElem?_map, List.getElem?_range poly_lt,
      Option.map_some, Option.getD_some]
    exact PolyShape.requestMessage_apply data nbCoef.toNat poly cm.isLt i_lt
  apply configured.encrypts_enc
  · intro cm i i_lt
    rw [words cm i i_lt, requestByte]
    split
    next => exact (data _).toNat_lt.trans (by decide)
    next => exact Nat.two_pow_pos 64
  · intro cm i i_lt
    rw [words cm i i_lt]

theorem cast_differenceCoefficient (bytes : ℕ) (memory : ℕ → UInt8) (request : ℕ → ℕ → ℕ)
    (poly i : ℕ) :
    (differenceCoefficient lwe bytes memory request poly i : ℤ) =
      ((elementCoefficient lwe bytes memory poly i : ℤ) - request poly i) % 2 ^ lwe.aBits :=
  Int.toNat_of_nonneg (Int.emod_nonneg _ (by positivity))

theorem differenceCoefficient_lt (bytes : ℕ) (memory : ℕ → UInt8) (request : ℕ → ℕ → ℕ)
    (poly i : ℕ) : differenceCoefficient lwe bytes memory request poly i < 2 ^ lwe.aBits := by
  have below := Int.emod_lt_of_pos ((elementCoefficient lwe bytes memory poly i : ℤ) - request poly i)
    (show (0 : ℤ) < 2 ^ lwe.aBits by positivity)
  rw [← cast_differenceCoefficient] at below
  exact_mod_cast below

/-- The first level decrypts to the differences. -/
theorem decryptBytes_difference (configured : Configured lwe) (budget : lwe.LeavesBudget eltNbr)
    (n_le : ∀ level < pirParams.d, pirParams.n level ≤ eltNbr)
    (holds : HoldsDatabase usable bytes database inputData)
    (inside : chosenElement < pirParams.nbElements 0) {poly : ℕ}
    (request_lt : ∀ i < lwe.nfl.polyDegree, request poly i < 2 ^ lwe.aBits)
    (requested : lwe.Encrypts (subtract poly) fun i => request poly i)
    (poly_lt : poly < (cryptosystem usable).publicParams.plaintexts bytes 0)
    (sound : lwe.SoundReply (pirParams.n 0)
      (fun k => inputData (pirParams.n 0 * pirParams.chosenAt chosenElement 1 + k) poly)
      (pirParams.queryElement lwe.encryptElement coins chosenElement 0)) {data : ℕ → UInt8}
    (data_eq : ∀ i < (cryptosystem usable).publicParams.ciphertextBytesize,
      data i = lwe.cipherBytes ((cryptosystem usable).absorbed (pirParams.n 0)
        (fun k => inputData (pirParams.n 0 * pirParams.chosenAt chosenElement 1 + k) poly)
        (pirParams.queryElement lwe.encryptElement coins chosenElement 0)
        (some (subtract poly))) i) (byte : ℕ) :
    lwe.decryptBytes 1 data byte =
      differenceChunks lwe bytes (database chosenElement) request poly byte := by
  have d_pos := pirParams.d_pos
  have chosen_lt := pirParams.chosenAt_lt inside (Nat.succ_le_of_lt d_pos)
  have carries : ∀ k < pirParams.n 0, lwe.Carries
      (inputData (pirParams.n 0 * pirParams.chosenAt chosenElement 1 + k) poly)
      ((fun k => paddedChunks lwe.absorbedBytes bytes
        (database (pirParams.n 0 * pirParams.chosenAt chosenElement 1 + k)) poly) k) :=
    fun k _ => holds _ poly poly_lt
  rcases exists_block configured usable budget (n_le 0 d_pos) d_pos carries sound with
    ⟨v, encrypts, small, low⟩
  rw [pirParams.chosenAt_eq _ d_pos] at low
  change ∀ i < lwe.nfl.polyDegree, v i % 2 ^ lwe.aBits =
    elementCoefficient lwe bytes (database chosenElement) poly i at low
  have difference := encrypts.sub requested.lazily
  have digit_lt : ∀ i, differenceCoefficient lwe bytes (database chosenElement) request poly i <
      2 ^ lwe.aBits := differenceCoefficient_lt bytes (database chosenElement) request poly
  have value_lt := concatenate_lt digit_lt lwe.nfl.polyDegree
  rw [mul_comm] at value_lt
  have range : ∀ i < lwe.nfl.polyDegree, 2 * |v i - request poly i| < lwe.nfl.moduliProduct := by
    intro i i_lt
    have triangle := abs_sub (v i) (request poly i : ℤ)
    have limit := small i i_lt
    have bound : ((request poly i : ℕ) : ℤ) < 2 ^ lwe.aBits := by
      exact_mod_cast request_lt i i_lt
    rw [Nat.abs_cast] at triangle
    linarith
  have bits : ∀ i < lwe.nfl.polyDegree, (v i - request poly i) % 2 ^ lwe.aBits =
      bitSlice (concatenate lwe.aBits
        (differenceCoefficient lwe bytes (database chosenElement) request poly)
        lwe.nfl.polyDegree) (i * lwe.aBits) lwe.aBits := by
    intro i i_lt
    rw [mul_comm i, bitSlice_concatenate usable.absorbs_pos digit_lt, if_pos i_lt,
      cast_differenceCoefficient, ← low i i_lt, Int.emod_sub_emod]
  apply UInt8.toNat_inj.mp
  rw [decryptBytes_eq usable budget.absorbs difference range value_lt bits 1 data_eq byte,
    differenceChunks, UInt8.toNat_ofNat', Nat.mod_eq_of_lt]
  exact bitSlice_lt _ _ _

/-- Queries and a request give the chunks of which the coefficients are the differences. -/
theorem retrievesFrom_difference (configured : Configured lwe) (budget : lwe.LeavesBudget eltNbr)
    (n_le : ∀ level < pirParams.d, pirParams.n level ≤ eltNbr)
    (fits : SizesFit usable pirParams bytes)
    (holds : HoldsDatabase usable bytes database inputData)
    (inside : chosenElement < pirParams.nbElements 0)
    (request_lt : ∀ poly, ∀ i < lwe.nfl.polyDegree, request poly i < 2 ^ lwe.aBits)
    (requested : ∀ poly < (cryptosystem usable).publicParams.plaintexts bytes 0,
      lwe.Encrypts (subtract poly) fun i => request poly i)
    (sound : SoundPath usable pirParams coins chosenElement initial inputData bytes
      (some subtract)) :
    RetrievesFrom usable pirParams bytes inputData coins chosenElement initial
      (some subtract)
      (differenceChunks lwe bytes (database chosenElement) request) := by
  let queriesBuf := ((pirParams.generateQuery lwe.encryptElement coins chosenElement).foldl
    pirParams.pushQuery ⟨initial, 0, 0⟩).queriesBuf
  rcases LatticesBasedCryptosystem.exists_generateReply (cryptosystem usable) queriesBuf
    (inputData) ((cryptosystem usable).publicParams.plaintexts bytes 0)
    (some subtract) fits.rounds pirParams.n_lt with ⟨final, returns⟩
  refine (selecting configured usable budget n_le fits.few fits.counters).retrieves_outcome rfl
    (cryptosystem_hasSizes usable).bounds fits.bytes_pos fits.few fits.rounds fits.keeps
    fits.offsets (pirParams.received_generateQuery lwe.encryptElement coins chosenElement initial)
    inside ?_ (fun final returns level level_lt _ => sound final returns level level_lt)
  intro poly poly_lt data data_eq i _
  exact decryptBytes_difference configured budget n_le holds inside (request_lt poly)
    (requested poly poly_lt) poly_lt (sound final returns 0 pirParams.d_pos poly poly_lt) data_eq i

/-- A chunk of differences is zero if the element has the coefficients of the request there. -/
theorem differenceChunks_eq_zero_iff (usable : lwe.Usable) (bytes : ℕ) (memory : ℕ → UInt8)
    {poly : ℕ} (request_lt : ∀ i < lwe.nfl.polyDegree, request poly i < 2 ^ lwe.aBits) :
    (∀ byte < lwe.absorbedBytes, differenceChunks lwe bytes memory request poly byte = 0) ↔
      ∀ i < lwe.nfl.polyDegree, elementCoefficient lwe bytes memory poly i = request poly i := by
  have digit_lt : ∀ i, differenceCoefficient lwe bytes memory request poly i < 2 ^ lwe.aBits :=
    differenceCoefficient_lt bytes memory request poly
  have value_lt := concatenate_lt digit_lt lwe.nfl.polyDegree
  rw [mul_comm, ← eight_mul_absorbedBytes usable.degree_dvd] at value_lt
  have byte_zero : ∀ byte, differenceChunks lwe bytes memory request poly byte = 0 ↔
      bitSlice (concatenate lwe.aBits (differenceCoefficient lwe bytes memory request poly)
        lwe.nfl.polyDegree) (8 * byte) 8 = 0 := by
    intro byte
    rw [← UInt8.toNat_inj, differenceChunks, UInt8.toNat_ofNat',
      Nat.mod_eq_of_lt (bitSlice_lt _ _ _)]
    rfl
  have digit_zero : ∀ i < lwe.nfl.polyDegree,
      (differenceCoefficient lwe bytes memory request poly i = 0 ↔
        elementCoefficient lwe bytes memory poly i = request poly i) := by
    intro i i_lt
    have element_lt : elementCoefficient lwe bytes memory poly i < 2 ^ lwe.aBits :=
      bitSlice_lt _ _ _
    have element_mod : (elementCoefficient lwe bytes memory poly i : ℤ) % 2 ^ lwe.aBits =
        elementCoefficient lwe bytes memory poly i :=
      Int.emod_eq_of_lt (Int.natCast_nonneg _) (by exact_mod_cast element_lt)
    have request_mod : (request poly i : ℤ) % 2 ^ lwe.aBits = request poly i :=
      Int.emod_eq_of_lt (Int.natCast_nonneg _) (by exact_mod_cast request_lt i i_lt)
    rw [← Nat.cast_eq_zero (R := ℤ), cast_differenceCoefficient,
      ← Int.emod_eq_emod_iff_emod_sub_eq_zero, element_mod, request_mod, Nat.cast_inj]
  simp only [byte_zero]
  rw [forall_bitSlice_eq_zero_iff (by decide) value_lt, concatenate_eq_zero_iff]
  exact forall₂_congr digit_zero

end Subtraction

section Negotiated

variable {securityBits levels aggregatedModulusBitsize : ℕ} {levels_le : levels ≤ 13}
  {absPCBitsize : ℤ} {rnd : ∀ nbModuli, NFLlib.Poly nbModuli} {before : NFLLWE}
  {pirParams : PIRParameters}

/--
With the parameters of a client, and at least eight bits to a coefficient, the chunks that are
extracted are zero exactly where the coefficients of the chosen element are the bytes of
the request.
-/
theorem subtracted_request_zero_iff
    (accepted : setNewParameters securityBits levels_le aggregatedModulusBitsize absPCBitsize
      rnd = some before) (securityBits_pos : 1 ≤ securityBits) (levels_ge : 3 ≤ levels)
    (modulus_lt : aggregatedModulusBitsize < 960)
    (positive : 8 ≤ (before.setandgetAbsBitPerCiphertext (pirParams.n 0)).2)
    (n_le : ∀ level < pirParams.d, pirParams.n level ≤ pirParams.n 0) :
    ∃ usable : (before.setandgetAbsBitPerCiphertext (pirParams.n 0)).1.Usable,
      ∀ (bytes : ℕ) (database : ℕ → ℕ → UInt8) (inputData : ℕ → ℕ → Poly before.nfl.nbModuli)
        (coins : ℕ → ℕ → Coins before.nfl.nbModuli)
        (initial : ℕ → ℕ → Poly before.nfl.nbModuli × Poly before.nfl.nbModuli)
        (chosenElement : ℕ) (requestCoins : ℕ → Coins before.nfl.nbModuli) (data : ℕ → UInt8)
        (nbCoef : UInt32),
        SizesFit usable pirParams bytes → HoldsDatabase usable bytes database inputData →
        chosenElement < pirParams.nbElements 0 →
        (polyShape _ usable.moduli_pos).requestCount nbCoef < 2 ^ 31 →
        (cryptosystem usable).publicParams.plaintexts bytes 0 ≤
          (polyShape _ usable.moduli_pos).requestCount nbCoef →
        (∀ request, sentRequest usable requestCoins data nbCoef = some request →
          SoundPath usable pirParams coins chosenElement initial inputData bytes (some request)) →
        ∃ request chunks, sentRequest usable requestCoins data nbCoef = some request ∧
          RetrievesFrom usable pirParams bytes inputData coins chosenElement initial (some request)
            chunks ∧
          ∀ poly < (cryptosystem usable).publicParams.plaintexts bytes 0,
            (∀ byte < (before.setandgetAbsBitPerCiphertext (pirParams.n 0)).1.absorbedBytes,
              chunks poly byte = 0) ↔
            ∀ i < before.nfl.polyDegree,
              elementCoefficient (before.setandgetAbsBitPerCiphertext (pirParams.n 0)).1 bytes
                (database chosenElement) poly i =
                  requestByte before.nfl.polyDegree nbCoef.toNat data poly i := by
  have n_pos := pirParams.n_pos 0 pirParams.d_pos
  have noiseUB_ge : 2 ≤ before.noiseUB := by
    rw [noiseUB_of_setNewParameters accepted, noiseUpperBound]
    omega
  have absorbs : 0 < (before.setandgetAbsBitPerCiphertext (pirParams.n 0)).2 := by omega
  have configured := Configured.setandgetAbsBitPerCiphertext before (pirParams.n 0)
  have budget := leavesBudget_of_chosen n_pos noiseUB_ge absorbs
  have usable := usable_of_accepted accepted securityBits_pos levels_ge modulus_lt n_pos absorbs
  refine ⟨usable, ?_⟩
  intro bytes database inputData coins initial chosenElement requestCoins data nbCoef fits holds
    inside count_lt covers sound
  rcases exists_sentRequest configured usable requestCoins data count_lt with
    ⟨request, sends, requested⟩
  have byte_le : 2 ^ 8 ≤ 2 ^ (before.setandgetAbsBitPerCiphertext (pirParams.n 0)).1.aBits := by
    apply Nat.pow_le_pow_right Nat.two_pos
    rw [aBits_setandgetAbsBitPerCiphertext absorbs]
    omega
  have byte_lt : ∀ poly i, requestByte before.nfl.polyDegree nbCoef.toNat data poly i <
      2 ^ (before.setandgetAbsBitPerCiphertext (pirParams.n 0)).1.aBits := by
    intro poly i
    rw [requestByte]
    split
    next => exact (data _).toNat_lt.trans_le byte_le
    next => exact Nat.two_pow_pos _
  refine ⟨request, _, sends, retrievesFrom_difference configured budget n_le fits holds inside
    (fun poly i _ => byte_lt poly i) (fun poly poly_lt => requested poly (poly_lt.trans_le covers))
    (sound request sends), ?_⟩
  intro poly _
  exact differenceChunks_eq_zero_iff usable bytes (database chosenElement) fun i _ => byte_lt poly i

/-- The number that a byte one and some zeros stand for. -/
theorem littleEndian_one {count : ℕ} (count_pos : 0 < count) :
    littleEndian (paddedChunks count 1 (fun _ => 1) 0) count = 1 := by
  rw [littleEndian, concatenate, Finset.sum_eq_single_of_mem 0 (Finset.mem_range.mpr count_pos)]
  · simp [paddedChunks]
  · intro byte _ byte_ne
    rw [paddedChunks, if_neg (by omega), UInt8.toNat_zero, Nat.zero_mul]

/-- An element of a byte one is the same as a request of this byte. -/
theorem subtracted_request_zero_iff_one : ∃ usable : smallPair.Usable, ∃ inputData,
    HoldsDatabase usable 1 (fun _ _ => 1) inputData ∧
    ∃ request chunks, sentRequest usable (fun _ => ⟨fun _ => 0, fun _ _ => 0⟩) (fun _ => 1) 1 =
        some request ∧
      RetrievesFrom usable (twoElements 0) 1 inputData (fun _ _ => ⟨fun _ => 0, fun _ _ => 0⟩) 1
        (fun _ _ => (fun _ _ => 0, fun _ _ => 0)) (some request) chunks ∧
      ∀ byte < smallPair.absorbedBytes, chunks 0 byte = 0 := by
  rcases @subtracted_request_zero_iff _ _ _ _ _ _ _ (twoElements 0)
    (show setNewParameters 80 (show 9 ≤ 13 by decide) 60 20 (fun _ _ _ => 1) = some smallKey
      from rfl) (by decide) (by decide) (by decide) (by decide +kernel) (fun _ _ => le_rfl) with
    ⟨usable, compares⟩
  have fits : SizesFit usable (twoElements 0) 1 :=
    smallPair_sizesFit usable rfl (by decide) (by decide) (by decide)
  have holds : HoldsDatabase usable 1 (fun _ _ => 1)
      (fun _ => deserializeElement usable (by decide : 8 * 1 < 2 ^ 64) fun _ => 1) :=
    fun _ => fits.carries _ _
  have size_eq : (cryptosystem usable).publicParams.absorptionBytesize = 1280 :=
    smallPair_absorptionBytesize usable
  have single : (cryptosystem usable).publicParams.plaintexts 1 0 = 1 := by
    rw [PublicParameters.plaintexts_zero, size_eq]
    decide
  have count_eq : (smallPair.polyShape usable.moduli_pos).requestCount 1 = 1 := by
    change (1 + UInt32.toNat 1 / 2 ^ 9) % 2 ^ 32 = 1
    decide
  rcases compares 1 (fun _ _ => 1) _ (fun _ _ => ⟨fun _ => 0, fun _ _ => 0⟩)
    (fun _ _ => (fun _ _ => 0, fun _ _ => 0)) 1 (fun _ => ⟨fun _ => 0, fun _ _ => 0⟩) (fun _ => 1) 1
    fits holds (by decide) (count_eq.trans_lt (by decide)) (by rw [single]; exact count_eq.ge)
    (fun _ _ => fits.soundPath (Configured.setandgetAbsBitPerCiphertext smallKey 2) holds
      fun _ _ => (by decide : 2 ≤ 5)) with ⟨request, chunks, sends, retrieves, zero_iff⟩
  refine ⟨usable, _, holds, request, chunks, sends, retrieves, ?_⟩
  refine (zero_iff 0 (by rw [single]; exact Nat.one_pos)).mpr ?_
  intro i _
  have absorbed_pos : 0 < smallPair.absorbedBytes := by decide +kernel
  have absorbs_pos : 0 < smallPair.aBits := usable.absorbs_pos
  change bitSlice (littleEndian (paddedChunks smallPair.absorbedBytes 1 (fun _ => 1) 0)
    smallPair.absorbedBytes) (i * smallPair.aBits) smallPair.aBits = _
  rw [littleEndian_one absorbed_pos, requestByte, Nat.zero_mul, Nat.zero_add]
  cases i with
  | zero =>
      rw [if_pos (by decide), Nat.zero_mul, bitSlice, pow_zero, Nat.div_one]
      exact Nat.mod_eq_of_lt (Nat.one_lt_two_pow absorbs_pos.ne')
  | succ i =>
      rw [if_neg (by change ¬ i + 1 < 1; omega)]
      exact bitSlice_eq_zero (Nat.one_lt_two_pow (by positivity)) _

end Negotiated

end NFLLWE

end Xpir
