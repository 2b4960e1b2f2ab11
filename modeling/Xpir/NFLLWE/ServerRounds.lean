import Xpir.Libpir.RoundLedger
import Xpir.NFLLWE.Retrieval

/-!
# Many clients of one server

The server imports its database once, and answers the queries of clients with one reply
generator, in the memory that the rounds allocate and free. This file connects these rounds to
the retrieval with the LWE cryptosystem: whatever has been asked before, each client extracts
the chunks of the element that it has chosen.
-/

namespace Xpir

open NFLlib PIRReplyExtraction

namespace NFLLWE

/-- A client asks for an element, and frees the replies that it does not keep. -/
structure Ask (nbModuli : ℕ) where
  coins : ℕ → ℕ → Coins nbModuli
  chosenElement : ℕ
  frees : ℕ → Bool

section Model

variable {lwe : NFLLWE} (usable : lwe.Usable) (pirParams : PIRParameters) {maxFileBytesize : ℕ}
  (bytes_lt : 8 * (maxFileBytesize * pirParams.alpha) < 2 ^ 64) (database : ℕ → ℕ → UInt8)

/-- The round of the server for what a client asks. -/
def Ask.round (ask : Ask lwe.nfl.nbModuli) :
    Round (Poly lwe.nfl.nbModuli × Poly lwe.nfl.nbModuli) where
  query := pirParams.queryElement lwe.encryptElement ask.coins ask.chosenElement
  request := none
  frees := ask.frees

/-- The memory of the server after the import of its elements. -/
def serverMemory : DatabaseMemory (Poly lwe.nfl.nbModuli)
    (Poly lwe.nfl.nbModuli × Poly lwe.nfl.nbModuli) :=
  ReplyRounds.importedMemory (cryptosystem usable) pirParams maxFileBytesize fun element =>
    deserializeElement usable bytes_lt (database element)

/-- All clients are answered, and each of them extracts its chunks. -/
def serveClients (asks : List (Ask lwe.nfl.nbModuli)) :
    Option (ReplyGenerator (Poly lwe.nfl.nbModuli)
      (Poly lwe.nfl.nbModuli × Poly lwe.nfl.nbModuli) × List (List (ℕ → UInt8))) := do
  let memory := serverMemory usable pirParams bytes_lt database
  let served ← ReplyRounds.runRounds (cryptosystem usable) pirParams (2 ^ 32) memory.database
    (asks.map (Ask.round pirParams)) (ReplyRounds.construct memory.heap)
  let clearChunks ← served.2.mapM fun replies =>
    extractReply (cryptosystem usable).publicParams pirParams lwe.decryptBytes (2 ^ 32)
      (toInt (maxFileBytesize * pirParams.alpha)) (replies.map lwe.cipherBytes)
  some (served.1, clearChunks)

/-- The chunks of the element that a client has chosen, in order. -/
def GetsChosen (bytes : ℕ) (ask : Ask lwe.nfl.nbModuli) (clearChunks : List (ℕ → UInt8)) : Prop :=
  Queued (cryptosystem usable).publicParams.absorptionBytesize
    (paddedChunks lwe.absorbedBytes bytes (database ask.chosenElement))
    ((cryptosystem usable).publicParams.plaintexts bytes 0) clearChunks

end Model

section Retrieval

variable {lwe : NFLLWE} {usable : lwe.Usable} {pirParams : PIRParameters}
  {maxFileBytesize eltNbr : ℕ}
  {bytes_lt : 8 * (maxFileBytesize * pirParams.alpha) < 2 ^ 64} {database : ℕ → ℕ → UInt8}
  {initial : ℕ → ℕ → Poly lwe.nfl.nbModuli × Poly lwe.nfl.nbModuli}

/-- What a client may ask for: an element whose way through the levels is sound. -/
structure Ask.Sound (usable : lwe.Usable) (pirParams : PIRParameters) {maxFileBytesize : ℕ}
    (bytes_lt : 8 * (maxFileBytesize * pirParams.alpha) < 2 ^ 64) (database : ℕ → ℕ → UInt8)
    (initial : ℕ → ℕ → Poly lwe.nfl.nbModuli × Poly lwe.nfl.nbModuli)
    (ask : Ask lwe.nfl.nbModuli) : Prop where
  inside : ask.chosenElement < pirParams.nbElements 0
  path : SoundPath usable pirParams ask.coins ask.chosenElement initial
    (fun element => deserializeElement usable bytes_lt (database element))
    (maxFileBytesize * pirParams.alpha) none

/-- A client that has been answered extracts its chunks. -/
theorem Ask.Sound.extracts {ask : Ask lwe.nfl.nbModuli}
    (sound : ask.Sound usable pirParams bytes_lt database initial) (configured : Configured lwe)
    (budget : lwe.LeavesBudget eltNbr) (n_le : ∀ level < pirParams.d, pirParams.n level ≤ eltNbr)
    (fits : SizesFit usable pirParams (maxFileBytesize * pirParams.alpha))
    {replies : List (Poly lwe.nfl.nbModuli × Poly lwe.nfl.nbModuli)}
    (answered : ReplyRounds.Answered (cryptosystem usable) pirParams (2 ^ 32)
      ((cryptosystem usable).publicParams.plaintexts (maxFileBytesize * pirParams.alpha) 0)
      (fun element => deserializeElement usable bytes_lt (database element))
      (ask.round pirParams) replies) :
    ∃ clearChunks,
      extractReply (cryptosystem usable).publicParams pirParams lwe.decryptBytes (2 ^ 32)
        (toInt (maxFileBytesize * pirParams.alpha)) (replies.map lwe.cipherBytes) =
          some clearChunks ∧
      GetsChosen usable database (maxFileBytesize * pirParams.alpha) ask clearChunks := by
  have holds : HoldsDatabase usable (maxFileBytesize * pirParams.alpha) database
      (fun element => deserializeElement usable bytes_lt (database element)) :=
    fun element => fits.carries bytes_lt (database element)
  rcases retrievesFrom_of_sound configured budget n_le fits holds sound.inside sound.path with
    ⟨final, clearChunks, returns, extracts, queued⟩
  have received := pirParams.received_generateQuery lwe.encryptElement ask.coins
    ask.chosenElement initial
  rcases answered.generated with ⟨reached, generates, rfl⟩
  rw [LatticesBasedCryptosystem.generateReply_congr received.full] at returns
  obtain rfl := Option.some.inj (generates.symm.trans returns)
  refine ⟨clearChunks, ?_, queued⟩
  rw [List.map_map]
  exact extracts

/-- The replies of all rounds are extracted. -/
theorem exists_extractReplies {extract : List (Poly lwe.nfl.nbModuli × Poly lwe.nfl.nbModuli) →
      Option (List (ℕ → UInt8))} {Gets : Ask lwe.nfl.nbModuli → List (ℕ → UInt8) → Prop}
    {answers : Ask lwe.nfl.nbModuli →
      List (Poly lwe.nfl.nbModuli × Poly lwe.nfl.nbModuli) → Prop}
    {asks : List (Ask lwe.nfl.nbModuli)}
    {replies : List (List (Poly lwe.nfl.nbModuli × Poly lwe.nfl.nbModuli))}
    (answered : List.Forall₂ answers asks replies)
    (extracts : ∀ ask ∈ asks, ∀ reply, answers ask reply →
      ∃ clearChunks, extract reply = some clearChunks ∧ Gets ask clearChunks) :
    ∃ chunks, replies.mapM extract = some chunks ∧ List.Forall₂ Gets asks chunks := by
  induction answered with
  | nil => exact ⟨[], rfl, .nil⟩
  | @cons ask reply asks replies first rest ih =>
      rcases extracts ask List.mem_cons_self reply first with ⟨clearChunks, extracts_first, gets⟩
      rcases ih fun other other_mem => extracts other (List.mem_cons_of_mem ask other_mem) with
        ⟨chunks, extracts_rest, gets_rest⟩
      refine ⟨clearChunks :: chunks, ?_, .cons gets gets_rest⟩
      rw [List.mapM_cons, extracts_first, extracts_rest]
      rfl

/-- The replies that clients keep. -/
def keptReplies (usable : lwe.Usable) (pirParams : PIRParameters) (bytes : ℕ)
    (asks : List (Ask lwe.nfl.nbModuli)) : ℕ :=
  (asks.map fun ask => (ask.round pirParams).kept
    ((cryptosystem usable).publicParams.plaintexts bytes (pirParams.d - 1))).sum

theorem exists_serveClients (configured : Configured lwe) (budget : lwe.LeavesBudget eltNbr)
    (n_le : ∀ level < pirParams.d, pirParams.n level ≤ eltNbr)
    (fits : SizesFit usable pirParams (maxFileBytesize * pirParams.alpha))
    (isInt : ∀ i < pirParams.d, pirParams.n i ≤ 2 ^ 31)
    (elements_lt : pirParams.nbElements 1 < 2 ^ 31) {asks : List (Ask lwe.nfl.nbModuli)}
    (sound : ∀ ask ∈ asks, ask.Sound usable pirParams bytes_lt database initial) :
    ∃ final, serveClients usable pirParams bytes_lt database asks = some final ∧
      List.Forall₂ (GetsChosen usable database (maxFileBytesize * pirParams.alpha)) asks final.2 ∧
      final.1.live = (serverMemory usable pirParams bytes_lt database).heap.live +
        keptReplies usable pirParams (maxFileBytesize * pirParams.alpha) asks +
          if asks = [] then 0 else 1 := by
  have bounds := (cryptosystem_hasSizes usable).bounds
  have bytes_pos : 0 < maxFileBytesize := Nat.pos_of_mul_pos_right fits.bytes_pos
  have serves := ReplyRounds.serves_importedMemory bounds bytes_pos fits.few isInt elements_lt
    fun element => deserializeElement usable bytes_lt (database element)
  have complete : ∀ round ∈ asks.map (Ask.round pirParams), ∀ ciphers,
      round.request = some ciphers → (cryptosystem usable).publicParams.plaintexts
        (maxFileBytesize * pirParams.alpha) 0 ≤ ciphers.length ∧ ciphers.length < 2 ^ 31 := by
    intro round round_mem ciphers asked
    rcases List.mem_map.mp round_mem with ⟨ask, -, rfl⟩
    exact absurd asked (by simp [Ask.round])
  rcases serves.live_runRounds pirParams.n_lt complete with ⟨served, runs, answered, live⟩
  rw [List.forall₂_map_left_iff] at answered
  rcases exists_extractReplies answered (fun ask ask_mem reply answer =>
    (sound ask ask_mem).extracts configured budget n_le fits answer) with ⟨chunks, extracts, gets⟩
  refine ⟨(served.1, chunks), ?_, gets, ?_⟩
  · have serverRuns : ReplyRounds.runRounds (cryptosystem usable) pirParams (2 ^ 32)
        (serverMemory usable pirParams bytes_lt database).database (asks.map (Ask.round pirParams))
        (ReplyRounds.construct (serverMemory usable pirParams bytes_lt database).heap) =
          some served := runs
    rw [serveClients, serverRuns]
    show Option.bind (List.mapM _ served.2) _ = _
    rw [extracts]
    rfl
  · have no_requests : ((asks.map (Ask.round pirParams)).map Round.leaked).sum = 0 := by
      rw [List.sum_eq_zero_iff]
      simp [Ask.round, Round.leaked]
    rw [LatticesBasedCryptosystem.levelPolys_eq_plaintexts rfl bounds fits.few, no_requests,
      Nat.add_zero, List.map_map] at live
    simp only [List.map_eq_nil_iff] at live
    exact live

end Retrieval

section Negotiated

variable {securityBits levels aggregatedModulusBitsize : ℕ} {levels_le : levels ≤ 13}
  {absPCBitsize : ℤ} {rnd : ∀ nbModuli, NFLlib.Poly nbModuli} {before : NFLLWE}
  {pirParams : PIRParameters}

/--
Any clients, with any choices one after another, are answered from one import, and each of
them extracts the chunks of its element. In the memory of the server, their rounds leave the
replies that they keep and the array of the last replies, and nothing else.
-/
theorem serveClients_gets_chosen
    (accepted : setNewParameters securityBits levels_le aggregatedModulusBitsize absPCBitsize
      rnd = some before) (securityBits_pos : 1 ≤ securityBits) (levels_ge : 3 ≤ levels)
    (modulus_lt : aggregatedModulusBitsize < 960)
    (positive : 0 < (before.setandgetAbsBitPerCiphertext (pirParams.n 0)).2)
    (n_le : ∀ level < pirParams.d, pirParams.n level ≤ pirParams.n 0)
    (isInt : pirParams.n 0 ≤ 2 ^ 31) (elements_lt : pirParams.nbElements 1 < 2 ^ 31) :
    ∃ usable : (before.setandgetAbsBitPerCiphertext (pirParams.n 0)).1.Usable,
      ∀ (maxFileBytesize : ℕ) (bytes_lt : 8 * (maxFileBytesize * pirParams.alpha) < 2 ^ 64)
        (database : ℕ → ℕ → UInt8)
        (initial : ℕ → ℕ → Poly before.nfl.nbModuli × Poly before.nfl.nbModuli)
        (asks : List (Ask before.nfl.nbModuli)),
        SizesFit usable pirParams (maxFileBytesize * pirParams.alpha) →
        (∀ ask ∈ asks, Ask.Sound usable pirParams bytes_lt database initial ask) →
        ∃ final, serveClients usable pirParams bytes_lt database asks = some final ∧
          List.Forall₂ (GetsChosen usable database (maxFileBytesize * pirParams.alpha)) asks
            final.2 ∧
          final.1.live = (serverMemory usable pirParams bytes_lt database).heap.live +
            keptReplies usable pirParams (maxFileBytesize * pirParams.alpha) asks +
              if asks = [] then 0 else 1 := by
  have n_pos := pirParams.n_pos 0 pirParams.d_pos
  have noiseUB_ge : 2 ≤ before.noiseUB := by
    rw [noiseUB_of_setNewParameters accepted, noiseUpperBound]
    omega
  refine ⟨usable_of_accepted accepted securityBits_pos levels_ge modulus_lt n_pos positive, ?_⟩
  intro maxFileBytesize bytes_lt database initial asks fits sound
  exact exists_serveClients (Configured.setandgetAbsBitPerCiphertext before _)
    (leavesBudget_of_chosen n_pos noiseUB_ge positive) n_le fits
    (fun level level_lt => (n_le level level_lt).trans isInt) elements_lt sound

/-- The second element is asked for, and then the first one. -/
def bothElements : List (Ask smallPair.nfl.nbModuli) :=
  [⟨fun _ _ => ⟨fun _ => 0, fun _ _ => 0⟩, 1, fun _ => true⟩,
    ⟨fun _ _ => ⟨fun _ => 0, fun _ _ => 0⟩, 0, fun _ => true⟩]

/-- Two clients get their elements of four bytes, and free all replies. -/
theorem serveClients_gets_chosen_both : ∃ usable : smallPair.Usable, ∃ final,
    serveClients usable (twoElements 0) (show 8 * (4 * (twoElements 0).alpha) < 2 ^ 64 by decide)
      (fun element _ => UInt8.ofNat element) bothElements = some final ∧
    List.Forall₂ (GetsChosen usable (fun element _ => UInt8.ofNat element)
      (4 * (twoElements 0).alpha)) bothElements final.2 ∧
    final.1.live = (serverMemory usable (twoElements 0)
      (show 8 * (4 * (twoElements 0).alpha) < 2 ^ 64 by decide)
      fun element _ => UInt8.ofNat element).heap.live + 1 := by
  rcases @serveClients_gets_chosen _ _ _ _ _ _ _ (twoElements 0)
    (show setNewParameters 80 (show 9 ≤ 13 by decide) 60 20 (fun _ _ _ => 1) = some smallKey
      from rfl) (by decide) (by decide) (by decide) (by decide +kernel) (fun _ _ => le_rfl)
    (by decide) (by decide) with ⟨usable, served⟩
  have fits : SizesFit usable (twoElements 0) (4 * (twoElements 0).alpha) :=
    smallPair_sizesFit usable rfl (by decide) (by decide) (by decide)
  have bytes_lt : 8 * (4 * (twoElements 0).alpha) < 2 ^ 64 := by decide
  have holds : HoldsDatabase usable (4 * (twoElements 0).alpha)
      (fun element _ => UInt8.ofNat element)
      (fun element => deserializeElement usable bytes_lt fun _ => UInt8.ofNat element) :=
    fun element => fits.carries bytes_lt fun _ => UInt8.ofNat element
  have sound : ∀ ask ∈ bothElements, Ask.Sound usable (twoElements 0) bytes_lt
      (fun element _ => UInt8.ofNat element) (fun _ _ => (fun _ _ => 0, fun _ _ => 0)) ask := by
    intro ask ask_mem
    refine ⟨?_, fits.soundPath (Configured.setandgetAbsBitPerCiphertext smallKey 2) holds
      fun _ _ => (by decide : 2 ≤ 5)⟩
    rcases List.mem_cons.mp ask_mem with rfl | later
    · decide
    · rw [List.mem_singleton.mp later]
      decide
  rcases served 4 bytes_lt (fun element _ => UInt8.ofNat element) _ bothElements fits sound with
    ⟨final, serves, gets, live⟩
  have none_kept : @keptReplies smallPair usable (twoElements 0) (4 * (twoElements 0).alpha)
      bothElements = 0 := by
    simp [keptReplies, bothElements, Ask.round, Round.kept, Round.freed, List.countP_true]
  exact ⟨usable, final, serves, gets, live.trans (congrArg (_ + · + 1) none_kept)⟩

end Negotiated

end NFLLWE

end Xpir
