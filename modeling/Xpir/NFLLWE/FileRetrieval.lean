import Xpir.DBHandlers.DatabaseImport
import Xpir.NFLLWE.Retrieval
import Xpir.ReplyExtraction.ChosenElement

/-!
# Retrieval of a file

The server imports the files of a directory in groups, and an element of its database is a
group. The client asks for the element with the number of the chosen file, taken modulo the
number of elements, and copies what lies at the place of the file in its group.

So the file that is written holds the bytes of the chosen file if a group is a single file.
In larger groups the client gets the stream at the same place of another group, unless the
number of the file and that of its group happen to agree, and the import has erased the last
stream of an incomplete group.
-/

namespace Xpir

open NFLlib PIRReplyExtraction PIRReplyWriter

namespace NFLLWE

section Model

variable {lwe : NFLLWE} (usable : lwe.Usable) (db : DBDirectoryProcessor) (streams : StreamDatabase)
  (bytes_lt : 8 * streams.elementBytes < 2 ^ 64) (pirParams : PIRParameters)

/-- The database of the server; the elements without a group are filled up with zeros. -/
def importedData : Option (ℕ → ℕ → Poly lwe.nfl.nbModuli) :=
  db.importDataNFL streams (deserializeElement usable bytes_lt) (fun _ _ _ => 0)
    (streams.fileByteSize + streams.nbStream + 2)

/-- The polynomials of an element of the database. -/
def polysPerElement : ℕ :=
  (lwe.polyShape usable.moduli_pos).polyNumber (elementShape usable bytes_lt)

/--
The server imports the files and computes its replies, and the client extracts them and
writes the file that it has chosen. Every loop has as much fuel as it can use.
-/
def retrieveFile (coins : ℕ → ℕ → Coins lwe.nfl.nbModuli)
    (initial : ℕ → ℕ → Poly lwe.nfl.nbModuli × Poly lwe.nfl.nbModuli) (catalog : DESC)
    (chosenElement : ℕ) (previous : Option (List UInt8)) :
    Option (WriterState (Option (List UInt8))) := do
  let queries := pirParams.generateQuery lwe.encryptElement coins chosenElement
  let queriesBuf := (queries.foldl pirParams.pushQuery ⟨initial, 0, 0⟩).queriesBuf
  let nbPolys := polysPerElement usable streams bytes_lt
  let inputData ← importedData usable db streams bytes_lt
  let final ← (cryptosystem usable).generateReply pirParams (2 ^ 32) queriesBuf inputData nbPolys
    none
  let clearChunks ← extractReply (cryptosystem usable).publicParams pirParams lwe.decryptBytes
    (2 ^ 32) (toInt (catalog.maxFileSize * pirParams.alpha))
    ((List.range ((cryptosystem usable).levelPolys nbPolys (pirParams.d - 1))).map fun poly =>
      lwe.cipherBytes (LatticesBasedCryptosystem.repliesArray pirParams final poly))
  writeAggregatedFileSecurely (2 ^ 64 + 2 * catalog.maxFileSize + 1) chosenElement pirParams.alpha
    (cryptosystem usable).publicParams.absorptionBytesize catalog false clearChunks previous

/-- A byte of what the client gets for a file. -/
def arrivingByte (chosenElement byte : ℕ) : UInt8 :=
  let element := chosenElement % pirParams.nbElements 0
  if element < streams.nbruns then
    db.slotByte streams element (chosenElement % pirParams.alpha) byte
  else 0

end Model

section Database

variable {lwe : NFLLWE} {usable : lwe.Usable} {streams : StreamDatabase} {pirParams : PIRParameters}

theorem paddedChunks_zero (size bytes chunk : ℕ) :
    paddedChunks size bytes (fun _ => 0) chunk = fun _ => 0 := by
  funext i
  rw [paddedChunks, ite_self]

/-- The elements that are imported hold the slots of their groups. -/
theorem SizesFit.exists_importedData (fits : SizesFit usable pirParams streams.elementBytes)
    (db : DBDirectoryProcessor) (bytes_lt : 8 * streams.elementBytes < 2 ^ 64) :
    ∃ inputData database, importedData usable db streams bytes_lt = some inputData ∧
      HoldsDatabase usable streams.elementBytes database inputData ∧
      ∀ element, if element < streams.nbruns then
        db.HoldsGroup streams element (database element) else database element = fun _ => 0 := by
  rcases db.importDataNFL_eq streams (deserializeElement usable bytes_lt) (fun _ _ _ => 0)
    (Nat.lt_succ_self _) with ⟨inputData, returns, elements, fills⟩
  have exists_bytes : ∀ element, ∃ rawBits,
      (∀ poly < (cryptosystem usable).publicParams.plaintexts streams.elementBytes 0,
        lwe.Carries (inputData element poly)
          (paddedChunks lwe.absorbedBytes streams.elementBytes rawBits poly)) ∧
      if element < streams.nbruns then db.HoldsGroup streams element rawBits
      else rawBits = fun _ => 0 := by
    intro element
    by_cases read : element < streams.nbruns
    · rcases elements element read with ⟨rawBits, holds, data_eq⟩
      refine ⟨rawBits, ?_, by rwa [if_pos read]⟩
      rw [data_eq]
      exact fits.carries bytes_lt rawBits
    · refine ⟨fun _ => 0, ?_, by rw [if_neg read]⟩
      intro poly _
      rw [fills element (not_lt.mp read), paddedChunks_zero]
      exact carries_zero lwe
  choose database carries content using exists_bytes
  exact ⟨inputData, database, returns, carries, content⟩

/-- With dimensions of at most five elements every directory can be accumulated. -/
theorem SizesFit.soundPath_importedData (configured : Configured lwe)
    (fits : SizesFit usable pirParams streams.elementBytes) {db : DBDirectoryProcessor}
    {bytes_lt : 8 * streams.elementBytes < 2 ^ 64} {inputData : ℕ → ℕ → Poly lwe.nfl.nbModuli}
    (imports : importedData usable db streams bytes_lt = some inputData)
    (short : ∀ level < pirParams.d, pirParams.n level ≤ 5)
    {coins : ℕ → ℕ → Coins lwe.nfl.nbModuli} {chosenElement : ℕ}
    {initial : ℕ → ℕ → Poly lwe.nfl.nbModuli × Poly lwe.nfl.nbModuli} :
    SoundPath usable pirParams coins chosenElement initial inputData streams.elementBytes none := by
  rcases fits.exists_importedData db bytes_lt with ⟨data, database, same, holds, _⟩
  rw [imports] at same
  rw [Option.some.inj same]
  exact fits.soundPath configured holds short

end Database

section Retrieval

variable {lwe : NFLLWE} {usable : lwe.Usable} {db : DBDirectoryProcessor} {streams : StreamDatabase}
  {bytes_lt : 8 * streams.elementBytes < 2 ^ 64} {pirParams : PIRParameters} {catalog : DESC}
  {coins : ℕ → ℕ → Coins lwe.nfl.nbModuli} {chosenElement eltNbr : ℕ}
  {initial : ℕ → ℕ → Poly lwe.nfl.nbModuli × Poly lwe.nfl.nbModuli}

/-- A byte of the extracted chunks, if they are those of some bytes. -/
theorem clearByte_of_queued {size count bytes : ℕ} {memory : ℕ → UInt8}
    {clearChunks : List (ℕ → UInt8)}
    (queued : Queued size (paddedChunks size bytes memory) count clearChunks) {position : ℕ}
    (inside : position < bytes) (bytes_le : bytes ≤ count * size) :
    clearByte clearChunks size position = memory position := by
  have size_pos : 0 < size := Nat.pos_of_lt_mul_left (inside.trans_le bytes_le)
  have chunk_lt : position / size < count :=
    (Nat.div_lt_iff_lt_mul size_pos).mpr (inside.trans_le bytes_le)
  rw [clearByte, queued.2 _ chunk_lt _ (Nat.mod_lt _ size_pos), paddedChunks, Nat.div_add_mod',
    if_pos inside]

/-- The catalog of the client describes the files of the server. -/
structure Describes (catalog : DESC) (streams : StreamDatabase) (pirParams : PIRParameters) :
    Prop where
  alpha_eq : pirParams.alpha = streams.alpha
  maxFileSize_eq : catalog.maxFileSize = streams.maxFileBytesize
  length_eq : catalog.fileSize.length = streams.nbStream
  /-- Whole files are imported at once. -/
  offset_eq : streams.offset = 0
  bytesPerFile_ge : streams.maxFileBytesize ≤ streams.bytesPerFile

theorem Describes.fileByteSize_eq (describes : Describes catalog streams pirParams) :
    streams.fileByteSize = streams.maxFileBytesize := by
  rw [StreamDatabase.fileByteSize, describes.offset_eq, Nat.sub_zero]
  exact min_eq_right describes.bytesPerFile_ge

theorem Describes.getFileSize_le (describes : Describes catalog streams pirParams)
    (chosen_lt : chosenElement < streams.nbStream) :
    catalog.getFileSize chosenElement ≤ catalog.maxFileSize := by
  have inside : chosenElement < catalog.fileSize.length := by
    rw [describes.length_eq]
    exact chosen_lt
  rw [DESC.getFileSize, List.getD_eq_getElem?_getD, List.getElem?_eq_getElem inside,
    Option.getD_some]
  exact catalog.fileSize_le _ (List.getElem_mem inside)

/-- What is written is what arrives for the file, as long as the file is. -/
theorem exists_retrieveFile (configured : Configured lwe) (budget : lwe.LeavesBudget eltNbr)
    (n_le : ∀ level < pirParams.d, pirParams.n level ≤ eltNbr)
    (fits : SizesFit usable pirParams streams.elementBytes)
    (describes : Describes catalog streams pirParams) (chosen_lt : chosenElement < streams.nbStream)
    (sound : ∀ inputData, importedData usable db streams bytes_lt = some inputData →
      SoundPath usable pirParams coins (chosenElement % pirParams.nbElements 0) initial inputData
        streams.elementBytes none) (previous : Option (List UInt8)) :
    ∃ final, retrieveFile usable db streams bytes_lt pirParams coins initial catalog chosenElement
        previous = some final ∧
      final.dest = some ((List.range (catalog.getFileSize chosenElement)).map
        (arrivingByte db streams pirParams chosenElement)) := by
  have bounds := (cryptosystem_hasSizes usable).bounds
  have nbStream_lt := streams.nbStream_lt
  have alpha_lt := streams.alpha_lt
  have element_lt := Nat.mod_lt chosenElement (pirParams.nbElements_pos 0)
  have place_lt := Nat.mod_lt chosenElement streams.alpha_pos
  have size_eq := describes.fileByteSize_eq
  have file_le := describes.getFileSize_le chosen_lt
  have bytes_eq : pirParams.alpha * catalog.maxFileSize = streams.elementBytes := by
    rw [StreamDatabase.elementBytes, size_eq, describes.maxFileSize_eq, describes.alpha_eq,
      Nat.mul_comm]
  have file_lt : catalog.maxFileSize ≤ streams.elementBytes := by
    rw [← bytes_eq]
    exact Nat.le_mul_of_pos_left _ pirParams.alpha_pos
  rcases fits.exists_importedData db bytes_lt with
    ⟨inputData, database, imports, holds, content⟩
  rcases retrievesFrom_of_sound configured budget n_le fits holds element_lt (sound _ imports) with
    ⟨reply, clearChunks, replies, extracts, queued⟩
  have received : clearChunks.length = pirParams.alpha * catalog.maxFileSize ⌈/⌉
      (cryptosystem usable).publicParams.absorptionBytesize := by
    rw [bytes_eq, queued.1, PublicParameters.plaintexts_zero]
  rcases writeAggregatedFileSecurely_eq pirParams.alpha_pos bounds.absorption_pos
    (bounds.absorption_lt.trans (by decide))
    (by rw [describes.alpha_eq]; omega : chosenElement - chosenElement % pirParams.alpha +
      pirParams.alpha < 2 ^ 64) received previous
    (Nat.lt_succ_self _) with
    ⟨written, writes, file_eq, _⟩
  rw [truncate_eq file_le, if_pos (by omega)] at file_eq
  refine ⟨written, ?_, ?_⟩
  · rw [pirParams.generateQuery_mod] at replies
    simp only [retrieveFile, polysPerElement, polyNumber_elementShape, imports, Option.bind_eq_bind,
      Option.bind_some]
    rw [replies, Option.bind_some, Nat.mul_comm catalog.maxFileSize, bytes_eq, extracts,
      Option.bind_some, writes]
  · rw [file_eq]
    congr 1
    apply List.map_congr_left
    intro byte byte_mem
    have byte_lt : byte < streams.fileByteSize := by
      rw [size_eq, ← describes.maxFileSize_eq]
      exact (List.mem_range.mp byte_mem).trans_le file_le
    have inside : chosenElement % streams.alpha * streams.fileByteSize + byte <
        streams.elementBytes := by
      calc chosenElement % streams.alpha * streams.fileByteSize + byte
          < (chosenElement % streams.alpha + 1) * streams.fileByteSize := by
            rw [Nat.succ_mul]
            exact Nat.add_lt_add_left byte_lt _
        _ ≤ streams.alpha * streams.fileByteSize := Nat.mul_le_mul_right _ place_lt
        _ = streams.elementBytes := Nat.mul_comm _ _
    have position_eq : skippedBytes chosenElement pirParams.alpha catalog.maxFileSize + byte =
        chosenElement % streams.alpha * streams.fileByteSize + byte := by
      rw [skippedBytes, describes.alpha_eq, describes.maxFileSize_eq, ← size_eq,
        Nat.mod_eq_of_lt (by omega)]
    have chunks_le : streams.elementBytes ≤
        (cryptosystem usable).publicParams.plaintexts streams.elementBytes 0 *
          (cryptosystem usable).publicParams.absorptionBytesize := by
      rw [PublicParameters.plaintexts_zero, Nat.mul_comm]
      exact (ceilDiv_le_iff_le_mul bounds.absorption_pos).mp le_rfl
    rw [← absorptionBytesize_eq usable] at queued
    have value := content (chosenElement % pirParams.nbElements 0)
    rw [position_eq, clearByte_of_queued queued inside chunks_le, arrivingByte, describes.alpha_eq]
    split at value
    next read =>
      rw [if_pos read]
      exact value _ place_lt _ byte_lt
    next padded => rw [if_neg padded, value]

end Retrieval

section Arrival

/--
The client gets the chosen file from every directory: the element with its number is its group,
and the import does not erase it, or it is left over in the buffer when an incomplete group is
imported as that element.
-/
def Arrives (streams : StreamDatabase) (pirParams : PIRParameters) (chosenElement : ℕ) : Prop :=
  let element := chosenElement % pirParams.nbElements 0
  (element = chosenElement / streams.alpha ∧
      (streams.Even ∨ chosenElement + 1 < streams.nbStream)) ∨
    (element * streams.alpha = chosenElement + 1 ∧ chosenElement + 1 < streams.nbStream ∧
      streams.nbStream < chosenElement + 1 + streams.alpha)

/-- The chosen file begins with a one, and all others are empty. -/
def onlyFile (chosenElement : ℕ) : DBDirectoryProcessor where
  filesSplitting := false
  files := fun stream => DBDirectoryProcessor.wholeFile (if stream = chosenElement then [1] else [])
  realFile := DBDirectoryProcessor.wholeFile []

theorem fileByte_onlyFile (streams : StreamDatabase) (chosenElement stream : ℕ) :
    (onlyFile chosenElement).fileByte streams stream 0 =
      if stream = chosenElement then 1 else 0 := by
  rw [DBDirectoryProcessor.fileByte, onlyFile, if_neg (by simp)]
  dsimp only
  split <;> rfl

variable {streams : StreamDatabase} {pirParams : PIRParameters} {chosenElement : ℕ}

/-- The place of the chosen file in its group, and the number of the group. -/
theorem div_of_place {group : ℕ}
    (place : group * streams.alpha + chosenElement % streams.alpha = chosenElement) :
    group = chosenElement / streams.alpha := by
  have split_eq := Nat.div_add_mod' chosenElement streams.alpha
  exact Nat.eq_of_mul_eq_mul_right streams.alpha_pos (by omega)

/-- The file arrives from all directories if it does from the one in which only it is not empty. -/
theorem arrives_of_onlyFile (chosen_lt : chosenElement < streams.nbStream)
    (alpha_eq : pirParams.alpha = streams.alpha) (offset_eq : streams.offset = 0)
    (same : arrivingByte (onlyFile chosenElement) streams pirParams chosenElement 0 =
      (onlyFile chosenElement).fileByte streams chosenElement 0) :
    Arrives streams pirParams chosenElement := by
  have place_lt := Nat.mod_lt chosenElement streams.alpha_pos
  rw [fileByte_onlyFile, if_pos rfl, arrivingByte, alpha_eq,
    DBDirectoryProcessor.slotByte, offset_eq, Nat.succ_mul] at same
  simp only [Nat.add_zero, fileByte_onlyFile] at same
  rw [Arrives]
  generalize chosenElement % pirParams.nbElements 0 = element at same ⊢
  split at same
  next read =>
    have inside := (streams.lt_nbruns_iff element).mp read
    split at same
    next kept =>
      split at same
      next place =>
        left
        refine ⟨div_of_place place, ?_⟩
        rcases kept with full | before
        · by_cases last : chosenElement + 1 < streams.nbStream
          · exact Or.inr last
          · left
            exact Dvd.intro_left (element + 1) (by rw [Nat.succ_mul]; omega)
        · exact Or.inr (by omega)
      next => exact absurd same (by decide)
    next lost =>
      split at same
      next => exact absurd same (by decide)
      next last_slot =>
        split at same
        next => exact absurd same (by decide)
        next later =>
          split at same
          next stale =>
            have start_pos := Nat.mul_pos (Nat.pos_of_ne_zero later) streams.alpha_pos
            rw [not_or] at lost
            exact Or.inr ⟨by omega, by omega, by omega⟩
          next => exact absurd same (by decide)
  next => exact absurd same (by decide)

theorem arrivingByte_of_arrives (chosen_lt : chosenElement < streams.nbStream)
    (alpha_eq : pirParams.alpha = streams.alpha)
    (arrives : Arrives streams pirParams chosenElement) (db : DBDirectoryProcessor) (byte : ℕ) :
    arrivingByte db streams pirParams chosenElement byte =
      db.fileByte streams chosenElement (streams.offset + byte) := by
  have alpha_pos := streams.alpha_pos
  have place_lt := Nat.mod_lt chosenElement alpha_pos
  have split_eq := Nat.div_add_mod' chosenElement streams.alpha
  rw [Arrives] at arrives
  rw [arrivingByte, alpha_eq, DBDirectoryProcessor.slotByte, Nat.succ_mul]
  generalize chosenElement % pirParams.nbElements 0 = element at arrives ⊢
  rcases arrives with ⟨rfl, kept⟩ | ⟨stale, later, incomplete⟩
  · have read : chosenElement / streams.alpha < streams.nbruns :=
      (streams.lt_nbruns_iff _).mpr (by omega)
    have condition : chosenElement / streams.alpha * streams.alpha + streams.alpha ≤
        streams.nbStream ∨ chosenElement / streams.alpha * streams.alpha +
          chosenElement % streams.alpha + 1 < streams.nbStream := by
      rw [split_eq]
      refine kept.imp_left ?_
      rintro ⟨groups, groups_eq⟩
      rw [groups_eq, ← Nat.succ_mul, Nat.mul_comm streams.alpha]
      apply Nat.mul_le_mul_right
      exact Nat.div_lt_of_lt_mul (groups_eq ▸ chosen_lt)
    rw [if_pos read, if_pos condition, split_eq]
  · have read : element < streams.nbruns := (streams.lt_nbruns_iff _).mpr (by omega)
    have element_ne : element ≠ 0 := by
      rintro rfl
      omega
    have place : chosenElement % streams.alpha = streams.alpha - 1 := by
      rcases Nat.exists_eq_add_of_le' (Nat.pos_of_ne_zero element_ne) with ⟨before, rfl⟩
      rw [Nat.succ_mul] at stale
      have chosen_eq : chosenElement = streams.alpha - 1 + streams.alpha * before := by
        rw [Nat.mul_comm]
        omega
      rw [chosen_eq, Nat.add_mul_mod_self_left]
      exact Nat.mod_eq_of_lt (by omega)
    rw [if_pos read, place, if_neg (by omega), if_neg (by omega), if_neg element_ne, stale,
      Nat.add_sub_cancel]

end Arrival

section Small

theorem twoGroups_alpha_pos (alpha : Fin 2) : 0 < (alpha : ℕ) + 1 := Nat.succ_pos _

theorem twoGroups_alpha_lt (alpha : Fin 2) : (alpha : ℕ) + 1 < 2 ^ 32 := by omega

theorem twoGroups_nbStream_pos (alpha : Fin 2) : 0 < 2 * ((alpha : ℕ) + 1) := by omega

theorem twoGroups_nbStream_lt (alpha : Fin 2) : 2 * ((alpha : ℕ) + 1) < 2 ^ 31 := by omega

/-- Two groups of files of one byte. -/
def twoGroups (alpha : Fin 2) : StreamDatabase where
  nbStream := 2 * (alpha + 1)
  maxFileBytesize := 1
  alpha := alpha + 1
  offset := 0
  bytesPerFile := 1
  alpha_pos := twoGroups_alpha_pos alpha
  alpha_lt := twoGroups_alpha_lt alpha
  nbStream_pos := twoGroups_nbStream_pos alpha
  nbStream_lt := twoGroups_nbStream_lt alpha
  offset_lt := Nat.one_pos
  bytes_pos := Nat.one_pos

/-- The catalog of these files. -/
def byteFiles (alpha : Fin 2) : DESC where
  fileSize := List.replicate (2 * (alpha + 1)) 1
  maxFileSize := 1
  fileSize_le := fun _ size_mem => (List.eq_of_mem_replicate size_mem).le
  maxFileSize_lt := Nat.one_lt_two_pow (Nat.succ_ne_zero 63)

/-- Each file contains its number. -/
def numberedFiles : DBDirectoryProcessor where
  filesSplitting := false
  files := fun stream => DBDirectoryProcessor.wholeFile [UInt8.ofNat stream]
  realFile := DBDirectoryProcessor.wholeFile []

theorem describes_byteFiles (alpha : Fin 2) :
    Describes (byteFiles alpha) (twoGroups alpha) (twoElements alpha) :=
  ⟨rfl, rfl, List.length_replicate, rfl, le_rfl⟩

end Small

section Negotiated

variable {securityBits levels aggregatedModulusBitsize : ℕ} {levels_le : levels ≤ 13}
  {absPCBitsize : ℤ} {rnd : ∀ nbModuli, NFLlib.Poly nbModuli} {before : NFLLWE}
  {pirParams : PIRParameters}

/--
The parameters absorb as much as queries of the length of the first dimension allow. Then the
file that is written holds what arrives for the chosen file, over its whole length.
-/
theorem retrieveFile_writes_arriving
    (accepted : setNewParameters securityBits levels_le aggregatedModulusBitsize absPCBitsize
      rnd = some before) (securityBits_pos : 1 ≤ securityBits) (levels_ge : 3 ≤ levels)
    (modulus_lt : aggregatedModulusBitsize < 960)
    (positive : 0 < (before.setandgetAbsBitPerCiphertext (pirParams.n 0)).2)
    (n_le : ∀ level < pirParams.d, pirParams.n level ≤ pirParams.n 0) :
    ∃ usable : (before.setandgetAbsBitPerCiphertext (pirParams.n 0)).1.Usable,
      ∀ (db : DBDirectoryProcessor) (streams : StreamDatabase)
        (bytes_lt : 8 * streams.elementBytes < 2 ^ 64) (catalog : DESC)
        (coins : ℕ → ℕ → Coins before.nfl.nbModuli)
        (initial : ℕ → ℕ → Poly before.nfl.nbModuli × Poly before.nfl.nbModuli)
        (chosenElement : ℕ) (previous : Option (List UInt8)),
        SizesFit usable pirParams streams.elementBytes → Describes catalog streams pirParams →
        chosenElement < streams.nbStream →
        (∀ inputData, importedData usable db streams bytes_lt = some inputData →
          SoundPath usable pirParams coins (chosenElement % pirParams.nbElements 0) initial
            inputData streams.elementBytes none) →
        ∃ final, retrieveFile usable db streams bytes_lt pirParams coins initial catalog
            chosenElement previous = some final ∧
          final.dest = some ((List.range (catalog.getFileSize chosenElement)).map
            (arrivingByte db streams pirParams chosenElement)) := by
  have n_pos := pirParams.n_pos 0 pirParams.d_pos
  have noiseUB_ge : 2 ≤ before.noiseUB := by
    rw [noiseUB_of_setNewParameters accepted, noiseUpperBound]
    omega
  refine ⟨usable_of_accepted accepted securityBits_pos levels_ge modulus_lt n_pos positive, ?_⟩
  intro db streams bytes_lt catalog coins initial chosenElement previous fits describes chosen_lt
    sound
  exact exists_retrieveFile (Configured.setandgetAbsBitPerCiphertext before _)
    (leavesBudget_of_chosen n_pos noiseUB_ge positive) n_le fits describes chosen_lt sound previous

/-- In groups of two files, the client gets the last of four files for the second one. -/
theorem retrieveFile_writes_arriving_second : ∃ usable : smallPair.Usable, ∃ final,
    retrieveFile usable numberedFiles (twoGroups 1) (by decide) (twoElements 1)
      (fun _ _ => ⟨fun _ => 0, fun _ _ => 0⟩) (fun _ _ => (fun _ _ => 0, fun _ _ => 0))
      (byteFiles 1) 1 none = some final ∧ final.dest = some [3] := by
  rcases @retrieveFile_writes_arriving _ _ _ _ _ _ _ (twoElements 1)
    (show setNewParameters 80 (show 9 ≤ 13 by decide) 60 20 (fun _ _ _ => 1) = some smallKey
      from rfl) (by decide) (by decide) (by decide) (by decide +kernel) (fun _ _ => le_rfl) with
    ⟨usable, written⟩
  have fits : SizesFit usable (twoElements 1) (twoGroups 1).elementBytes :=
    smallPair_sizesFit usable rfl (by decide) (by decide) (by decide)
  rcases written numberedFiles (twoGroups 1) (by decide) (byteFiles 1)
    (fun _ _ => ⟨fun _ => 0, fun _ _ => 0⟩) (fun _ _ => (fun _ _ => 0, fun _ _ => 0)) 1 none
    fits (describes_byteFiles 1) (by decide) (fun _ imports =>
      fits.soundPath_importedData (Configured.setandgetAbsBitPerCiphertext smallKey 2) imports
        fun _ _ => (by decide : 2 ≤ 5)) with ⟨final, returns, file_eq⟩
  refine ⟨usable, final, returns, ?_⟩
  have read : 1 % (twoElements 1).nbElements 0 < (twoGroups 1).nbruns :=
    ((twoGroups 1).lt_nbruns_iff _).mpr (by decide)
  have arriving : arrivingByte numberedFiles (twoGroups 1) (twoElements 1) 1 0 = 3 := by
    rw [arrivingByte, if_pos read]
    decide
  have range_eq : List.range ((byteFiles 1).getFileSize 1) = [0] := by decide
  rw [file_eq, range_eq, List.map_singleton, arriving]

/--
With the same parameters, the client gets the chosen file of every directory exactly if the
number of the file is that of its group as well, up to what the import of an incomplete
group erases and takes over.
-/
theorem retrieveFile_writes_chosen_iff
    (accepted : setNewParameters securityBits levels_le aggregatedModulusBitsize absPCBitsize
      rnd = some before) (securityBits_pos : 1 ≤ securityBits) (levels_ge : 3 ≤ levels)
    (modulus_lt : aggregatedModulusBitsize < 960)
    (positive : 0 < (before.setandgetAbsBitPerCiphertext (pirParams.n 0)).2)
    (n_le : ∀ level < pirParams.d, pirParams.n level ≤ pirParams.n 0) :
    ∃ usable : (before.setandgetAbsBitPerCiphertext (pirParams.n 0)).1.Usable,
      ∀ (streams : StreamDatabase) (bytes_lt : 8 * streams.elementBytes < 2 ^ 64) (catalog : DESC)
        (coins : ℕ → ℕ → Coins before.nfl.nbModuli)
        (initial : ℕ → ℕ → Poly before.nfl.nbModuli × Poly before.nfl.nbModuli)
        (chosenElement : ℕ) (previous : Option (List UInt8)),
        SizesFit usable pirParams streams.elementBytes → Describes catalog streams pirParams →
        chosenElement < streams.nbStream → 0 < catalog.getFileSize chosenElement →
        (∀ db inputData, importedData usable db streams bytes_lt = some inputData →
          SoundPath usable pirParams coins (chosenElement % pirParams.nbElements 0) initial
            inputData streams.elementBytes none) →
        ((∀ db : DBDirectoryProcessor, ∃ final, retrieveFile usable db streams bytes_lt pirParams
            coins initial catalog chosenElement previous = some final ∧
          final.dest = some ((List.range (catalog.getFileSize chosenElement)).map
            (db.fileByte streams chosenElement))) ↔ Arrives streams pirParams chosenElement) := by
  have n_pos := pirParams.n_pos 0 pirParams.d_pos
  have noiseUB_ge : 2 ≤ before.noiseUB := by
    rw [noiseUB_of_setNewParameters accepted, noiseUpperBound]
    omega
  refine ⟨usable_of_accepted accepted securityBits_pos levels_ge modulus_lt n_pos positive, ?_⟩
  intro streams bytes_lt catalog coins initial chosenElement previous fits describes chosen_lt
    size_pos sound
  have written : ∀ db, _ := fun db =>
    exists_retrieveFile (Configured.setandgetAbsBitPerCiphertext before _)
      (leavesBudget_of_chosen n_pos noiseUB_ge positive) n_le fits describes chosen_lt (sound db)
      previous
  constructor
  · intro chosen
    apply arrives_of_onlyFile chosen_lt describes.alpha_eq describes.offset_eq
    rcases written (onlyFile chosenElement) with ⟨final, returns, file_eq⟩
    rcases chosen (onlyFile chosenElement) with ⟨other, returned, chosen_eq⟩
    rw [returns] at returned
    rw [← Option.some.inj returned, file_eq] at chosen_eq
    exact List.map_inj_left.mp (Option.some.inj chosen_eq) 0 (List.mem_range.mpr size_pos)
  · intro arrives db
    rcases written db with ⟨final, returns, file_eq⟩
    refine ⟨final, returns, ?_⟩
    rw [file_eq]
    congr 1
    apply List.map_congr_left
    intro byte _
    rw [arrivingByte_of_arrives chosen_lt describes.alpha_eq arrives, describes.offset_eq,
      Nat.zero_add]

/-- In groups of a single file, the client gets the second of two files. -/
theorem retrieveFile_writes_chosen_iff_second : ∃ usable : smallPair.Usable, ∃ final,
    retrieveFile usable numberedFiles (twoGroups 0) (by decide) (twoElements 0)
      (fun _ _ => ⟨fun _ => 0, fun _ _ => 0⟩) (fun _ _ => (fun _ _ => 0, fun _ _ => 0))
      (byteFiles 0) 1 none = some final ∧ final.dest = some [1] := by
  rcases @retrieveFile_writes_chosen_iff _ _ _ _ _ _ _ (twoElements 0)
    (show setNewParameters 80 (show 9 ≤ 13 by decide) 60 20 (fun _ _ _ => 1) = some smallKey
      from rfl) (by decide) (by decide) (by decide) (by decide +kernel) (fun _ _ => le_rfl) with
    ⟨usable, chosen⟩
  have fits : SizesFit usable (twoElements 0) (twoGroups 0).elementBytes :=
    smallPair_sizesFit usable rfl (by decide) (by decide) (by decide)
  have arrives : Arrives (twoGroups 0) (twoElements 0) 1 := Or.inl ⟨by decide, Or.inl ⟨2, rfl⟩⟩
  rcases (chosen (twoGroups 0) (by decide) (byteFiles 0) (fun _ _ => ⟨fun _ => 0, fun _ _ => 0⟩)
    (fun _ _ => (fun _ _ => 0, fun _ _ => 0)) 1 none fits (describes_byteFiles 0) (by decide)
    (by decide) (fun _ _ imports =>
      fits.soundPath_importedData (Configured.setandgetAbsBitPerCiphertext smallKey 2) imports
        fun _ _ => (by decide : 2 ≤ 5))).mpr arrives numberedFiles with ⟨final, returns, file_eq⟩
  exact ⟨usable, final, returns, file_eq⟩

end Negotiated

end NFLLWE

end Xpir
