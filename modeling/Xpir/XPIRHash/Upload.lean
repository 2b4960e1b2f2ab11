import Mathlib.Data.List.Nodup
import Mathlib.Data.List.TakeWhile
import Xpir.XPIRHash.PIRClient
import Xpir.XPIRHash.SymmetricEncryption

/-!
# The upload of a folder

The client sends its files one after the other. When an entry of a catalog becomes too
long, it draws new keys and starts again with the first file, and gives up after five
attempts. A code after each file name tells the server which of these happens. The
server appends what it receives to the files of its database, and empties the database
whenever the client starts again.
-/

namespace Xpir.Upload

open PIRClient Socket

/-- The constants of the program and the contents of `paramsSHA.txt`. -/
structure Parameters where
  padding_size : ℕ
  data_hash_bytes : ℕ
  hashSize : ℕ
  filled : 0 < padding_size * data_hash_bytes
  bits_lt : padding_size * (8 * data_hash_bytes) < 2 ^ 31

namespace Parameters

variable (parameters : Parameters)

abbrev data_hash_size : ℕ := 8 * parameters.data_hash_bytes

abbrev max_bytesize : ℕ := parameters.padding_size * parameters.data_hash_size / 8

theorem max_bytesize_eq :
    parameters.max_bytesize = parameters.padding_size * parameters.data_hash_bytes := by
  rw [max_bytesize, data_hash_size, Nat.mul_left_comm, Nat.mul_div_cancel_left _ (by decide)]

theorem max_bytesize_pos : 0 < parameters.max_bytesize := by
  rw [max_bytesize_eq]
  exact parameters.filled

theorem max_bytesize_lt : parameters.max_bytesize < 2 ^ 31 :=
  (Nat.div_le_self _ _).trans_lt parameters.bits_lt

end Parameters

/-- What the client draws before each attempt. -/
structure Keys (parameters : Parameters) where
  hash : List Char → BitString parameters.data_hash_bytes
  aes : Block → Block
  nonce : List UInt8 → Vector UInt8 8

/-- A file whose name `listFilesFolder` finds; the name contains `.vcf`. -/
structure VcfFile where
  name : List UInt8
  lines : List (List Char)
  listed : [46, 118, 99, 102] <:+: name
  plain : ∀ byte ∈ name, byte ≠ 0 ∧ byte ≠ 47
  length_le : name.length ≤ 255

structure Folder where
  files : List VcfFile
  distinct : (files.map VcfFile.name).Nodup

/-- The sizes and the entries that follow the code 0. -/
structure FileData where
  max_bytesize : UInt32
  num_entries : UInt32
  entries : List (List UInt8)

/-- What is sent for a file. -/
structure FileMessage where
  name : List UInt8
  code : UInt32
  data : Option FileData

section Client

variable (parameters : Parameters) (encrypted : Bool)

/-- The lines of a file are hashed; the inner result is missing if an entry becomes too long. -/
def readLines (hash : List Char → List Char) :
    List (List Char) → List (List Char) → Option (Option (List (List Char)))
  | [], catalog => some (some catalog)
  | line :: lines, catalog =>
      if line.head? = some '#' then readLines hash lines catalog
      else
        match uploadLine hash parameters.hashSize line with
        | none => none -- a column is read that is not there
        | some (pos, data_hash) =>
            let catalog := catalog.modify pos (· ++ data_hash)
            if parameters.padding_size * parameters.data_hash_size < (catalog.getD pos []).length
            then some none
            else readLines hash lines catalog

/-- A vector of strings has less than `2 ^ 58` elements. -/
def prepare (keys : Keys parameters) (file : VcfFile) : Option (Option (List (List Char))) :=
  if parameters.hashSize < 58 then
    readLines parameters (fun text => (keys.hash text).chars) file.lines
      (List.replicate (2 ^ parameters.hashSize) [])
  else none

/-- The messages for an entry, one behind the other. -/
def entryBlock (keys : Keys parameters) (name : List UInt8) (p : ℕ) (text : List Char) :
    List UInt8 :=
  let entry := binaryToUchar (padData text (parameters.max_bytesize * 8))
  (sendEntry keys.aes (keys.nonce name) encrypted parameters.padding_size
    parameters.data_hash_size entry (UInt64.ofNat (p * parameters.padding_size), [])).2.flatten

def fileData (keys : Keys parameters) (name : List UInt8) (catalog : List (List Char)) :
    FileData where
  max_bytesize := UInt32.ofNat parameters.max_bytesize
  num_entries := UInt32.ofNat catalog.length
  entries := catalog.mapIdx (entryBlock parameters encrypted keys name)

/-- The state of `uploadData`; `log` is not part of the program. -/
structure Uploading where
  i : ℕ
  num_attempts : ℕ
  wire : List UInt8
  log : List FileMessage
  aborted : Bool

variable (keys : ℕ → Keys parameters) (folder : Folder)

def uploadFile (file : VcfFile) (state : Uploading) : Option Uploading :=
  let keys := keys state.num_attempts
  let wire := state.wire ++ sendInt (UInt32.ofNat (file.name.length + 1)) ++ (file.name ++ [0])
  match prepare parameters keys file with
  | none => none
  | some none =>
      let num_attempts := state.num_attempts + 1
      if num_attempts = 5 then
        some { state with
          num_attempts
          wire := wire ++ sendInt 1
          log := state.log ++ [⟨file.name, 1, none⟩]
          aborted := true }
      else
        some { state with
          i := 0
          num_attempts
          wire := wire ++ sendInt 2
          log := state.log ++ [⟨file.name, 2, none⟩] }
  | some (some catalog) =>
      let sent := sendData keys.aes (keys.nonce file.name) encrypted parameters.padding_size
        parameters.data_hash_size catalog
      some { state with
        i := state.i + 1
        wire := wire ++ sendInt 0 ++ sent.flatten
        log := state.log ++
          [⟨file.name, 0, some (fileData parameters encrypted keys file.name catalog)⟩] }

def uploadStep (state : Uploading) : Option Uploading :=
  folder.files[state.i]?.bind fun file => uploadFile parameters encrypted keys file state

def uploadGuard (state : Uploading) : Bool :=
  !state.aborted && decide (state.i < folder.files.length)

def uploadStart : Uploading where
  i := 0
  num_attempts := 0
  wire := senduInt64 (UInt64.ofNat folder.files.length)
  log := []
  aborted := false

/-- `uploadData` comes to its end in the given state. -/
def Uploads (sent : Uploading) : Prop :=
  EndsWith (uploadGuard folder) (uploadStep parameters encrypted keys folder)
    (uploadStart folder) sent

end Client

section Server

/-- The contents of the files in `db/`. -/
abbrev Db := List UInt8 → Option (List UInt8)

/-- `rm -rf db/*`: the shell does not expand the star to names that begin with a dot. -/
def removeDB (db : Db) : Db := fun name => if name.head? = some 46 then db name else none

/-- The bytes are appended to the file, which is created if it is not there. -/
def writeToBinFile (db : Db) (name recvBuff : List UInt8) : Db :=
  Function.update db name (some ((db name).getD [] ++ recvBuff))

/-- A negative length is not allocated. -/
def readChar (buflen : UInt32) (input : List UInt8) : Option (List UInt8 × List UInt8) :=
  if buflen.toNat < 2 ^ 31 then readBytes buflen.toNat input else none

def readEntries (max_bytesize : UInt32) : ℕ → List UInt8 → Option (List (List UInt8) × List UInt8)
  | 0, input => some ([], input)
  | count + 1, input =>
      (readChar max_bytesize input).bind fun (recvBuff, input) =>
        (readEntries max_bytesize count input).map fun (entries, input) =>
          (recvBuff :: entries, input)

/-- The number of rounds of a loop up to an `int`. -/
def rounds (count : UInt32) : ℕ := if count.toNat < 2 ^ 31 then count.toNat else 0

/-- The state of `downloadData`; `received` is not part of the program. -/
structure Downloading where
  i : ℕ
  db : Db
  input : List UInt8
  received : List FileMessage
  exited : Bool

def downloadFile (state : Downloading) (filename : List UInt8) (error : UInt32)
    (input : List UInt8) : Option Downloading :=
  if error = 1 then
    some { state with
      db := removeDB state.db
      input
      received := state.received ++ [⟨filename, error, none⟩]
      exited := true }
  else if error = 2 then
    some { state with
      i := 0
      db := removeDB state.db
      input
      received := state.received ++ [⟨filename, error, none⟩] }
  else
    (Socket.readInt input).bind fun (max_bytesize, input) =>
      (Socket.readInt input).bind fun (num_entries, input) =>
        (readEntries max_bytesize (rounds num_entries) input).map fun (entries, input) =>
          { state with
            i := state.i + 1
            db := entries.foldl (fun db recvBuff => writeToBinFile db filename recvBuff) state.db
            input
            received := state.received ++
              [⟨filename, error, some ⟨max_bytesize, num_entries, entries⟩⟩] }

/-- A name that is not terminated is not read in a defined way. -/
def downloadStep (state : Downloading) : Option Downloading :=
  (Socket.readInt state.input).bind fun (len, input) =>
    (readChar len input).bind fun (filename_c, input) =>
      if 0 ∈ filename_c then
        (Socket.readInt input).bind fun (error, input) =>
          downloadFile state (filename_c.takeWhile (· ≠ 0)) error input
      else none

def downloadGuard (num_files : UInt64) (state : Downloading) : Bool :=
  !state.exited && decide (state.i < num_files.toNat)

def downloadStart (db : Db) (input : List UInt8) : Downloading where
  i := 0
  db := removeDB db
  input
  received := []
  exited := false

/-- `downloadData` comes to its end in the given state, with what has been sent to it. -/
def Downloads (num_files : UInt64) (db : Db) (input : List UInt8) (received : Downloading) : Prop :=
  EndsWith (downloadGuard num_files) downloadStep (downloadStart db input) received

end Server

section Protocol

variable (parameters : Parameters) (encrypted : Bool) (keys : ℕ → Keys parameters)
variable (folder : Folder) (db : Db)

/-- The database holds the files of the last attempt, each once, and no other new file. -/
def Stored (log : List FileMessage) (stored : Db) : Prop :=
  let last := log.drop (log.length - folder.files.length)
  last.map FileMessage.name = folder.files.map VcfFile.name ∧
    (∀ message ∈ last, ∃ data, message.data = some data ∧
      data.entries.length = 2 ^ parameters.hashSize ∧
      (∀ entry ∈ data.entries, entry.length = parameters.max_bytesize) ∧
      stored message.name = some data.entries.flatten) ∧
    ∀ name ∉ folder.files.map VcfFile.name, stored name = removeDB db name

/--
Both ends finish, the server has read what the client has sent and no more, and it
answers exactly if the client waits for the answer. If the client has not given up,
the files are stored.
-/
def InStep : Prop :=
  ∃ sent num_files input received,
    Uploads parameters encrypted keys folder sent ∧
    readuInt64 sent.wire = some (num_files, input) ∧
    num_files.toNat = folder.files.length ∧
    Downloads num_files db input received ∧
    received.received = sent.log ∧ received.input = [] ∧ received.exited = sent.aborted ∧
    (sent.aborted = false → Stored parameters folder db sent.log received.db)

/-- The file is sent in the given attempt, if the attempt gets that far. -/
def Sends (attempt : ℕ) (file : VcfFile) : Prop :=
  ∃ catalog, prepare parameters (keys attempt) file = some (some catalog)

instance (attempt : ℕ) (file : VcfFile) : Decidable (Sends parameters keys attempt file) :=
  match eq : prepare parameters (keys attempt) file with
  | none => isFalse (by simp [Sends, eq])
  | some none => isFalse (by simp [Sends, eq])
  | some (some catalog) => isTrue ⟨catalog, eq⟩

/-- The place of the first file that the attempt does not send. -/
def stop (attempt : ℕ) : ℕ :=
  folder.files.findIdx fun file => !decide (Sends parameters keys attempt file)

/-- The attempt meets an entry that becomes too long. -/
def OverFull (attempt : ℕ) : Prop :=
  ∃ file, folder.files[stop parameters keys folder attempt]? = some file ∧
    prepare parameters (keys attempt) file = some none

/-- The attempt meets a line with too few columns before an entry becomes too long. -/
def Malformed (attempt : ℕ) : Prop :=
  ∃ file, folder.files[stop parameters keys folder attempt]? = some file ∧
    prepare parameters (keys attempt) file = none

/-- All attempts before are given up because of an entry that becomes too long. -/
def Reached (attempt : ℕ) : Prop :=
  attempt < 5 ∧ ∀ earlier < attempt, OverFull parameters keys folder earlier

/--
Nothing is left of a file before its last attempt: for a name that begins with a dot
the database is empty at first, and no attempt before gets beyond the file.
-/
def Fresh (attempt j : ℕ) (file : VcfFile) : Prop :=
  file.name.head? = some 46 → (db file.name).getD [] = [] ∧
    ∀ earlier < attempt, stop parameters keys folder earlier ≤ j

/--
The number of files and the number of entries are kept by the messages, no attempt
meets a line with too few columns, and nothing is left of the files before the last attempt.
-/
def Clean : Prop :=
  folder.files.length < 2 ^ 32 ∧
    (parameters.hashSize < 31 ∨
      ∀ attempt, Reached parameters keys folder attempt →
        stop parameters keys folder attempt = 0) ∧
    ∀ attempt, Reached parameters keys folder attempt →
      ¬ Malformed parameters keys folder attempt ∧
        (stop parameters keys folder attempt = folder.files.length →
          ∀ j file, folder.files[j]? = some file → Fresh parameters keys folder db attempt j file)

end Protocol

section Entries

variable {parameters : Parameters} {encrypted : Bool} {keys : Keys parameters}
variable {aes : Block → Block} {nonce : Vector UInt8 8} {padding_size data_hash_size : ℕ}

/-- The messages for an entry follow those sent before, and depend only on the position. -/
theorem sendEntry_append (entry : List UInt8) (sending : Sending) :
    sendEntry aes nonce encrypted padding_size data_hash_size entry sending =
      (if encrypted then sending.1 + UInt64.ofNat padding_size else sending.1,
        sending.2 ++
          (sendEntry aes nonce encrypted padding_size data_hash_size entry (sending.1, [])).2) := by
  cases encrypted with
  | false => simp [sendEntry]
  | true => simp [sendEntry_eq]

/-- Without encryption the position does not matter. -/
theorem sendEntry_plain (entry : List UInt8) (pos : UInt64) :
    (sendEntry aes nonce false padding_size data_hash_size entry (pos, [])).2 = [entry] := rfl

theorem flatten_sendData (name : List UInt8) (catalog : List (List Char)) :
    (sendData keys.aes (keys.nonce name) encrypted parameters.padding_size
        parameters.data_hash_size catalog).flatten =
      sendInt (UInt32.ofNat parameters.max_bytesize) ++ sendInt (UInt32.ofNat catalog.length) ++
        (catalog.mapIdx (entryBlock parameters encrypted keys name)).flatten := by
  rw [sendData]
  generalize UInt32.ofNat catalog.length = num_entries
  dsimp only
  have loop : ∀ sending, catalog.foldl (fun sending text =>
      sendEntry keys.aes (keys.nonce name) encrypted parameters.padding_size
        parameters.data_hash_size (binaryToUchar (padData text (parameters.max_bytesize * 8)))
        sending) (0, [sendInt (UInt32.ofNat parameters.max_bytesize), sendInt num_entries]) =
      sending →
      sending.1 =
        (if encrypted then UInt64.ofNat (catalog.length * parameters.padding_size) else 0) ∧
      sending.2.flatten =
        sendInt (UInt32.ofNat parameters.max_bytesize) ++ sendInt num_entries ++
          (catalog.mapIdx (entryBlock parameters encrypted keys name)).flatten := by
    induction catalog using List.reverseRecOn with
    | nil =>
        rintro _ rfl
        simp
    | append_singleton catalog last ih =>
        rintro _ rfl
        rcases ih _ rfl with ⟨pos_eq, messages_eq⟩
        rw [List.foldl_append, List.foldl_cons, List.foldl_nil, sendEntry_append]
        refine ⟨?_, ?_⟩
        · rw [pos_eq]
          cases encrypted <;> simp [Nat.add_mul]
        · dsimp only
          rw [List.flatten_append, messages_eq, List.mapIdx_concat, List.flatten_append,
            List.flatten_singleton, ← List.append_assoc, entryBlock, pos_eq]
          cases encrypted with
          | false => simp only [sendEntry_plain]
          | true => rfl
  exact (loop _ rfl).2

theorem length_entryBlock {text : List Char}
    (text_le : text.length ≤ parameters.padding_size * parameters.data_hash_size)
    (name : List UInt8) (p : ℕ) :
    (entryBlock parameters encrypted keys name p text).length = parameters.max_bytesize := by
  have bits_eq : parameters.max_bytesize * 8 =
      parameters.padding_size * parameters.data_hash_size := by
    rw [parameters.max_bytesize_eq, Nat.mul_assoc, Nat.mul_comm _ 8]
  have entry_length :
      (binaryToUchar (padData text (parameters.max_bytesize * 8))).length =
        parameters.max_bytesize := by
    rw [length_binaryToUchar, bits_eq, padData, List.length_append, List.length_replicate,
      Nat.sub_add_cancel text_le]
  rw [entryBlock]
  cases encrypted with
  | false => rw [sendEntry_plain, List.flatten_singleton, entry_length]
  | true =>
      have slot_length : ∀ j ∈ List.range parameters.padding_size,
          (slotAt (parameters.data_hash_size / 8)
            (binaryToUchar (padData text (parameters.max_bytesize * 8))) j).length =
              parameters.data_hash_bytes := by
        intro j j_mem
        have slot_le : parameters.data_hash_bytes * j + parameters.data_hash_bytes ≤
            parameters.max_bytesize := by
          rw [parameters.max_bytesize_eq, ← Nat.mul_succ, Nat.mul_comm]
          exact Nat.mul_le_mul_right _ (List.mem_range.mp j_mem)
        rw [slotAt, List.length_take, List.length_drop, entry_length,
          Nat.mul_div_cancel_left _ (by decide)]
        omega
      rw [sendEntry_eq, List.nil_append, List.length_flatten, List.map_map]
      simp only [Function.comp_def, length_encrypt]
      rw [List.map_congr_left slot_length, List.map_const', List.length_range,
        List.sum_replicate_nat, parameters.max_bytesize_eq]

/-- A catalog that is sent has the given number of entries, none of which is too long. -/
theorem readLines_fits {hash : List Char → List Char} {lines catalog result : List (List Char)}
    (fits : ∀ text ∈ catalog, text.length ≤ parameters.padding_size * parameters.data_hash_size)
    (reads : readLines parameters hash lines catalog = some (some result)) :
    result.length = catalog.length ∧
      ∀ text ∈ result, text.length ≤ parameters.padding_size * parameters.data_hash_size := by
  induction lines generalizing catalog with
  | nil =>
      rw [readLines, Option.some.injEq, Option.some.injEq] at reads
      subst reads
      exact ⟨rfl, fits⟩
  | cons line lines ih =>
      rw [readLines] at reads
      split at reads
      · exact ih fits reads
      split at reads
      · exact absurd reads (by simp)
      next pos data_hash _ =>
        dsimp only at reads
        split at reads
        · exact absurd reads (by simp)
        next short =>
          have added := ih (fun text text_mem => ?_) reads
          · rw [List.length_modify] at added
            exact added
          rcases List.getElem?_of_mem text_mem with ⟨place, here⟩
          by_cases same : pos = place
          · subst same
            rw [List.getD_eq_getElem?_getD, here, Option.getD_some] at short
            exact not_lt.mp short
          · rw [List.getElem?_modify_ne _ _ same] at here
            exact fits text (List.mem_of_getElem? here)

theorem prepare_fits {file : VcfFile} {catalog : List (List Char)}
    (prepares : prepare parameters keys file = some (some catalog)) :
    catalog.length = 2 ^ parameters.hashSize ∧
      ∀ text ∈ catalog, text.length ≤ parameters.padding_size * parameters.data_hash_size := by
  rw [prepare] at prepares
  split at prepares
  · have fits := readLines_fits (fun text text_mem => ?_) prepares
    · rw [List.length_replicate] at fits
      exact fits
    · rw [List.eq_of_mem_replicate text_mem]
      exact Nat.zero_le _
  · exact absurd prepares (by simp)

theorem length_of_mem_entries {name block : List UInt8} {catalog : List (List Char)}
    (fits : ∀ text ∈ catalog, text.length ≤ parameters.padding_size * parameters.data_hash_size)
    (block_mem : block ∈ catalog.mapIdx (entryBlock parameters encrypted keys name)) :
    block.length = parameters.max_bytesize := by
  rcases List.mem_mapIdx.mp block_mem with ⟨p, p_lt, rfl⟩
  exact length_entryBlock (fits _ (List.getElem_mem p_lt)) name p

end Entries

section Messages

def FileMessage.encode (message : FileMessage) : List UInt8 :=
  sendInt (UInt32.ofNat (message.name.length + 1)) ++ (message.name ++ [0]) ++
    sendInt message.code ++
      match message.data with
      | none => []
      | some data =>
          sendInt data.max_bytesize ++ sendInt data.num_entries ++ data.entries.flatten

/-- What a message does to the database. -/
def FileMessage.apply (db : Db) (message : FileMessage) : Db :=
  match message.data with
  | none => removeDB db
  | some data => data.entries.foldl (fun db recvBuff => writeToBinFile db message.name recvBuff) db

/-- The sizes are those of the entries. -/
structure FileData.Complete (data : FileData) : Prop where
  size_lt : data.max_bytesize.toNat < 2 ^ 31
  size_eq : ∀ entry ∈ data.entries, entry.length = data.max_bytesize.toNat
  count_lt : data.num_entries.toNat < 2 ^ 31
  count_eq : data.entries.length = data.num_entries.toNat

theorem readEntries_flatten {max_bytesize : UInt32} (size_lt : max_bytesize.toNat < 2 ^ 31)
    {entries : List (List UInt8)} (size_eq : ∀ entry ∈ entries, entry.length = max_bytesize.toNat)
    (rest : List UInt8) :
    readEntries max_bytesize entries.length (entries.flatten ++ rest) = some (entries, rest) := by
  induction entries with
  | nil => rfl
  | cons entry entries ih =>
      have later := ih fun other other_mem => size_eq other (List.mem_cons_of_mem entry other_mem)
      rw [List.length_cons, List.flatten_cons, List.append_assoc, readEntries, readChar,
        if_pos size_lt, readBytes_append (size_eq entry List.mem_cons_self), Option.bind_some]
      dsimp only
      rw [later, Option.map_some]

/-- The server reads the name and the code of a message. -/
theorem downloadStep_encode {state : Downloading} {message : FileMessage} {rest : List UInt8}
    (plain : ∀ byte ∈ message.name, byte ≠ 0) (short : message.name.length ≤ 255)
    (input_eq : state.input = message.encode ++ rest) :
    downloadStep state = downloadFile state message.name message.code
      ((match message.data with
        | none => []
        | some data =>
            sendInt data.max_bytesize ++ sendInt data.num_entries ++ data.entries.flatten) ++
          rest) := by
  have length_toNat : (UInt32.ofNat (message.name.length + 1)).toNat = message.name.length + 1 :=
    UInt32.toNat_ofNat_of_lt' (show _ < 2 ^ 32 by omega)
  have name_eq : (message.name ++ [0]).takeWhile (fun byte => decide (byte ≠ 0)) =
      message.name := by
    rw [List.takeWhile_append_of_pos (by simpa using plain)]
    simp
  rw [downloadStep, input_eq, FileMessage.encode]
  simp only [List.append_assoc, readInt_sendInt, Option.bind_some]
  rw [← List.append_assoc message.name, readChar, if_pos (by rw [length_toNat]; omega),
    length_toNat, readBytes_append (by simp), Option.bind_some, if_pos (by simp)]
  simp only [readInt_sendInt, Option.bind_some]
  rw [name_eq]

theorem downloadFile_data {state : Downloading} {name rest : List UInt8} {data : FileData}
    (complete : data.Complete) :
    downloadFile state name 0
        (sendInt data.max_bytesize ++ sendInt data.num_entries ++ data.entries.flatten ++ rest) =
      some { state with
        i := state.i + 1
        db := FileMessage.apply state.db ⟨name, 0, some data⟩
        input := rest
        received := state.received ++ [⟨name, 0, some data⟩] } := by
  have count_eq : rounds data.num_entries = data.entries.length := by
    rw [rounds, if_pos complete.count_lt, complete.count_eq]
  rw [downloadFile, if_neg (by decide), if_neg (by decide)]
  simp only [List.append_assoc, readInt_sendInt, Option.bind_some]
  rw [count_eq, readEntries_flatten complete.size_lt complete.size_eq, Option.map_some]
  rfl

/-- The server never takes more entries than an `int` can count. -/
theorem readEntries_length {max_bytesize : UInt32} {count : ℕ} {input rest : List UInt8}
    {entries : List (List UInt8)}
    (reads : readEntries max_bytesize count input = some (entries, rest)) :
    entries.length = count := by
  induction count generalizing input entries rest with
  | zero =>
      rw [readEntries, Option.some.injEq, Prod.mk.injEq] at reads
      rw [← reads.1, List.length_nil]
  | succ count ih =>
      rw [readEntries] at reads
      rcases Option.bind_eq_some_iff.mp reads with ⟨⟨recvBuff, input⟩, _, later⟩
      rcases Option.map_eq_some_iff.mp later with ⟨⟨others, last⟩, others_eq, pair_eq⟩
      rw [Prod.mk.injEq] at pair_eq
      rw [← pair_eq.1, List.length_cons, ih others_eq]

end Messages

section Attempts

variable {parameters : Parameters} {encrypted : Bool} {keys : ℕ → Keys parameters}
variable {folder : Folder} {attempt : ℕ} {file : VcfFile}

theorem stop_le : stop parameters keys folder attempt ≤ folder.files.length :=
  List.findIdx_le_length

theorem exists_of_lt_stop {k : ℕ} (k_lt : k < stop parameters keys folder attempt) :
    ∃ file, folder.files[k]? = some file ∧ Sends parameters keys attempt file := by
  have inside : k < folder.files.length := k_lt.trans_le stop_le
  refine ⟨folder.files[k], List.getElem?_eq_getElem inside, ?_⟩
  simpa using List.not_of_lt_findIdx k_lt

theorem not_sends_stop (here : folder.files[stop parameters keys folder attempt]? = some file) :
    ¬ Sends parameters keys attempt file := by
  rcases List.getElem?_eq_some_iff.mp here with ⟨inside, file_eq⟩
  have found : (!decide (Sends parameters keys attempt
      folder.files[stop parameters keys folder attempt])) = true :=
    List.findIdx_getElem (w := inside)
  rw [file_eq] at found
  simpa using found

/-- An attempt sends all files, or meets an entry that becomes too long or a short line. -/
theorem attempt_cases (parameters : Parameters) (keys : ℕ → Keys parameters) (folder : Folder)
    (attempt : ℕ) : stop parameters keys folder attempt = folder.files.length ∨
      OverFull parameters keys folder attempt ∨ Malformed parameters keys folder attempt := by
  rcases stop_le.lt_or_eq with inside | all
  · right
    have here := List.getElem?_eq_getElem inside
    cases prepared : prepare parameters (keys attempt)
        folder.files[stop parameters keys folder attempt] with
    | none => exact Or.inr ⟨_, here, prepared⟩
    | some result =>
        cases result with
        | none => exact Or.inl ⟨_, here, prepared⟩
        | some catalog => exact absurd ⟨catalog, prepared⟩ (not_sends_stop here)
  · exact Or.inl all

theorem Reached.previous (reached : Reached parameters keys folder (attempt + 1)) :
    Reached parameters keys folder attempt :=
  ⟨by have := reached.1; omega, fun earlier before => reached.2 earlier (before.trans (by omega))⟩

/-- What holds at the start and is kept by a sent file and by a new attempt holds everywhere. -/
theorem reach_induction (holds : ℕ → ℕ → Prop) (start : holds 0 0)
    (send : ∀ attempt k file catalog, Reached parameters keys folder attempt →
      k < stop parameters keys folder attempt → folder.files[k]? = some file →
      prepare parameters (keys attempt) file = some (some catalog) →
      holds attempt k → holds attempt (k + 1))
    (retry : ∀ attempt file, Reached parameters keys folder (attempt + 1) →
      folder.files[stop parameters keys folder attempt]? = some file →
      prepare parameters (keys attempt) file = some none →
      holds attempt (stop parameters keys folder attempt) → holds (attempt + 1) 0)
    (reached : Reached parameters keys folder attempt) {k : ℕ}
    (k_le : k ≤ stop parameters keys folder attempt) : holds attempt k := by
  have along : ∀ attempt, Reached parameters keys folder attempt → holds attempt 0 →
      ∀ k ≤ stop parameters keys folder attempt, holds attempt k := by
    intro attempt reached first k k_le
    induction k with
    | zero => exact first
    | succ k ih =>
        rcases exists_of_lt_stop k_le with ⟨file, here, catalog, prepared⟩
        exact send attempt k file catalog reached k_le here prepared (ih (Nat.le_of_succ_le k_le))
  have begins : ∀ attempt, Reached parameters keys folder attempt → holds attempt 0 := by
    intro attempt reached
    induction attempt with
    | zero => exact start
    | succ attempt ih =>
        rcases reached.2 attempt (Nat.lt_succ_self attempt) with ⟨file, here, prepared⟩
        exact retry attempt file reached here prepared
          (along attempt reached.previous (ih reached.previous) _ le_rfl)
  exact along attempt reached (begins attempt reached) k k_le

/-- How an upload ends. -/
theorem upload_cases (parameters : Parameters) (keys : ℕ → Keys parameters) (folder : Folder) :
    (∃ attempt, Reached parameters keys folder attempt ∧
      Malformed parameters keys folder attempt) ∨
    (∃ attempt, Reached parameters keys folder attempt ∧
      stop parameters keys folder attempt = folder.files.length) ∨
    Reached parameters keys folder 4 ∧ OverFull parameters keys folder 4 := by
  by_contra neither
  rw [not_or, not_or] at neither
  rcases neither with ⟨well_formed, unfinished, not_last⟩
  have full : ∀ attempt, Reached parameters keys folder attempt →
      OverFull parameters keys folder attempt := by
    intro attempt reached
    rcases attempt_cases parameters keys folder attempt with all | full | malformed
    · exact absurd ⟨attempt, reached, all⟩ unfinished
    · exact full
    · exact absurd ⟨attempt, reached, malformed⟩ well_formed
  have reached : ∀ attempt < 5, Reached parameters keys folder attempt := by
    intro attempt attempt_lt
    refine ⟨attempt_lt, fun earlier before => ?_⟩
    induction earlier using Nat.strong_induction_on with
    | _ earlier ih =>
        exact full earlier
          ⟨before.trans attempt_lt, fun first first_lt => ih first first_lt (first_lt.trans before)⟩
  exact not_last ⟨reached 4 (by decide), full 4 (reached 4 (by decide))⟩

end Attempts

section Runs

variable (parameters : Parameters) (encrypted : Bool) (keys : ℕ → Keys parameters)
variable (folder : Folder)

/-- The message for a file that an attempt comes to, unless it is the last one. -/
def sentMessage (attempt : ℕ) (file : VcfFile) : FileMessage :=
  match prepare parameters (keys attempt) file with
  | some (some catalog) =>
      ⟨file.name, 0, some (fileData parameters encrypted (keys attempt) file.name catalog)⟩
  | _ => ⟨file.name, 2, none⟩

/-- What has been sent when the given file of the given attempt is next. -/
def logAt (attempt k : ℕ) : List FileMessage :=
  ((List.range attempt).flatMap fun earlier =>
    (folder.files.take (stop parameters keys folder earlier + 1)).map
      (sentMessage parameters encrypted keys earlier)) ++
    (folder.files.take k).map (sentMessage parameters encrypted keys attempt)

/-- The state of the client when the given file of the given attempt is next. -/
def uploadAt (attempt k : ℕ) : Uploading where
  i := k
  num_attempts := attempt
  wire := senduInt64 (UInt64.ofNat folder.files.length) ++
    (logAt parameters encrypted keys folder attempt k).flatMap FileMessage.encode
  log := logAt parameters encrypted keys folder attempt k
  aborted := false

/-- The state of the client when it gives up. -/
def uploadAborted (file : VcfFile) : Uploading :=
  let before := uploadAt parameters encrypted keys folder 4 (stop parameters keys folder 4)
  let message : FileMessage := ⟨file.name, 1, none⟩
  { before with
    num_attempts := 5
    wire := before.wire ++ message.encode
    log := before.log ++ [message]
    aborted := true }

variable {parameters encrypted keys folder} {attempt k : ℕ} {file : VcfFile}

theorem sentMessage_of_catalog {catalog : List (List Char)}
    (prepared : prepare parameters (keys attempt) file = some (some catalog)) :
    sentMessage parameters encrypted keys attempt file =
      ⟨file.name, 0, some (fileData parameters encrypted (keys attempt) file.name catalog)⟩ := by
  rw [sentMessage, prepared]

theorem sentMessage_of_overFull (prepared : prepare parameters (keys attempt) file = some none) :
    sentMessage parameters encrypted keys attempt file = ⟨file.name, 2, none⟩ := by
  rw [sentMessage, prepared]

theorem logAt_succ (here : folder.files[k]? = some file) :
    logAt parameters encrypted keys folder attempt (k + 1) =
      logAt parameters encrypted keys folder attempt k ++
        [sentMessage parameters encrypted keys attempt file] := by
  rw [logAt, logAt, List.take_add_one, here, Option.toList_some, List.map_append,
    ← List.append_assoc, List.map_singleton]

theorem logAt_retry : logAt parameters encrypted keys folder (attempt + 1) 0 =
    logAt parameters encrypted keys folder attempt (stop parameters keys folder attempt + 1) := by
  rw [logAt, logAt, List.range_succ, List.flatMap_append, List.flatMap_singleton, List.take_zero,
    List.map_nil, List.append_nil]

theorem uploadAt_retry (here : folder.files[stop parameters keys folder attempt]? = some file)
    (prepared : prepare parameters (keys attempt) file = some none) (not_last : attempt + 1 ≠ 5) :
    uploadFile parameters encrypted keys file
      (uploadAt parameters encrypted keys folder attempt (stop parameters keys folder attempt)) =
        some (uploadAt parameters encrypted keys folder (attempt + 1) 0) := by
  simp only [uploadFile, uploadAt, prepared, if_neg not_last, logAt_retry, logAt_succ here,
    sentMessage_of_overFull prepared, List.flatMap_append, List.flatMap_singleton,
    FileMessage.encode, List.append_nil, List.append_assoc]

theorem uploadAt_aborts (prepared : prepare parameters (keys 4) file = some none) :
    uploadFile parameters encrypted keys file
      (uploadAt parameters encrypted keys folder 4 (stop parameters keys folder 4)) =
        some (uploadAborted parameters encrypted keys folder file) := by
  simp only [uploadFile, uploadAt, uploadAborted, prepared, if_true, FileMessage.encode,
    List.append_nil, List.append_assoc]

theorem uploadAt_sends (here : folder.files[k]? = some file) {catalog : List (List Char)}
    (prepared : prepare parameters (keys attempt) file = some (some catalog)) :
    uploadFile parameters encrypted keys file
      (uploadAt parameters encrypted keys folder attempt k) =
        some (uploadAt parameters encrypted keys folder attempt (k + 1)) := by
  simp only [uploadFile, uploadAt, prepared, logAt_succ here, sentMessage_of_catalog prepared,
    List.flatMap_append, List.flatMap_singleton, FileMessage.encode, fileData,
    flatten_sendData, List.append_assoc]

theorem uploadGuard_uploadAt (k_lt : k < folder.files.length) :
    uploadGuard folder (uploadAt parameters encrypted keys folder attempt k) = true := by
  simp [uploadGuard, uploadAt, k_lt]

theorem uploadStep_uploadAt (here : folder.files[k]? = some file) :
    uploadStep parameters encrypted keys folder
        (uploadAt parameters encrypted keys folder attempt k) =
      uploadFile parameters encrypted keys file
        (uploadAt parameters encrypted keys folder attempt k) := by
  rw [uploadStep, uploadAt, here, Option.bind_some]

/-- The client comes to every file up to the first one that the attempt does not send. -/
theorem leadsTo_uploadAt (reached : Reached parameters keys folder attempt)
    (k_le : k ≤ stop parameters keys folder attempt) :
    LeadsTo (uploadGuard folder) (uploadStep parameters encrypted keys folder)
      (uploadStart folder) (uploadAt parameters encrypted keys folder attempt k) := by
  refine reach_induction (fun attempt k => LeadsTo _ _ _ (uploadAt _ _ _ _ attempt k))
    ?_ ?_ ?_ reached k_le
  · simpa [uploadAt, logAt, uploadStart] using LeadsTo.refl (uploadStart folder)
  · intro attempt k file catalog _ k_lt here prepared leads
    refine leads.trans (LeadsTo.step (uploadGuard_uploadAt (k_lt.trans_le stop_le)) ?_)
    rw [uploadStep_uploadAt here, uploadAt_sends here prepared]
  · intro attempt file next_reached here prepared leads
    have inside := (List.getElem?_eq_some_iff.mp here).1
    refine leads.trans (LeadsTo.step (uploadGuard_uploadAt inside) ?_)
    rw [uploadStep_uploadAt here, uploadAt_retry here prepared (by have := next_reached.1; omega)]

theorem complete_fileData (counted : parameters.hashSize < 31) {catalog : List (List Char)}
    (prepared : prepare parameters (keys attempt) file = some (some catalog)) :
    (fileData parameters encrypted (keys attempt) file.name catalog).Complete := by
  rcases prepare_fits prepared with ⟨length_eq, fits⟩
  have count_lt : 2 ^ parameters.hashSize < 2 ^ 31 := Nat.pow_lt_pow_right (by decide) counted
  have size_toNat : (UInt32.ofNat parameters.max_bytesize).toNat = parameters.max_bytesize :=
    UInt32.toNat_ofNat_of_lt' (parameters.max_bytesize_lt.trans (by decide))
  have count_toNat : (UInt32.ofNat catalog.length).toNat = catalog.length :=
    UInt32.toNat_ofNat_of_lt' (by rw [length_eq]; exact count_lt.trans (by decide))
  constructor
  · rw [fileData, size_toNat]
    exact parameters.max_bytesize_lt
  · intro entry entry_mem
    rw [fileData, size_toNat]
    exact length_of_mem_entries fits entry_mem
  · rw [fileData, count_toNat, length_eq]
    exact count_lt
  · rw [fileData, count_toNat, List.length_mapIdx]

variable (parameters encrypted keys folder) in
/-- The database when the given file of the given attempt is next. -/
def dbAt (db : Db) (attempt k : ℕ) : Db :=
  (logAt parameters encrypted keys folder attempt k).foldl FileMessage.apply (removeDB db)

variable (parameters encrypted keys folder) in
/-- The state of the server when the given file of the given attempt is next. -/
def downloadAt (db : Db) (attempt k : ℕ) (rest : List UInt8) : Downloading where
  i := k
  db := dbAt parameters encrypted keys folder db attempt k
  input := rest
  received := logAt parameters encrypted keys folder attempt k
  exited := false

theorem VcfFile.name_ne_zero (file : VcfFile) : ∀ byte ∈ file.name, byte ≠ 0 :=
  fun byte byte_mem => (file.plain byte byte_mem).1

variable {db : Db} {num_files : UInt64}

theorem downloadGuard_downloadAt (num_eq : num_files.toNat = folder.files.length)
    (k_lt : k < folder.files.length) (rest : List UInt8) :
    downloadGuard num_files
      (downloadAt parameters encrypted keys folder db attempt k rest) = true := by
  simp [downloadGuard, downloadAt, num_eq, k_lt]

/-- The server comes to the same places as the client. -/
theorem leadsTo_downloadAt (num_eq : num_files.toNat = folder.files.length)
    (counted : parameters.hashSize < 31 ∨
      ∀ attempt, Reached parameters keys folder attempt → stop parameters keys folder attempt = 0)
    (reached : Reached parameters keys folder attempt)
    (k_le : k ≤ stop parameters keys folder attempt) (rest : List UInt8) :
    LeadsTo (downloadGuard num_files) downloadStep
      (downloadStart db ((logAt parameters encrypted keys folder attempt k).flatMap
        FileMessage.encode ++ rest))
      (downloadAt parameters encrypted keys folder db attempt k rest) := by
  refine reach_induction (fun attempt k => ∀ rest, LeadsTo _ _ (downloadStart db
    ((logAt parameters encrypted keys folder attempt k).flatMap FileMessage.encode ++ rest))
    (downloadAt parameters encrypted keys folder db attempt k rest)) ?_ ?_ ?_ reached k_le rest
  · intro rest
    simpa [downloadAt, dbAt, logAt, downloadStart] using LeadsTo.refl (downloadStart db rest)
  · intro attempt k file catalog reached k_lt here prepared leads rest
    have small : parameters.hashSize < 31 :=
      counted.resolve_right fun none_sent => by
        rw [none_sent attempt reached] at k_lt
        exact absurd k_lt (Nat.not_lt_zero k)
    have complete : (fileData parameters encrypted (keys attempt) file.name catalog).Complete :=
      complete_fileData small prepared
    rw [logAt_succ here, List.flatMap_append, List.flatMap_singleton, List.append_assoc]
    refine (leads _).trans
      (LeadsTo.step (downloadGuard_downloadAt num_eq (k_lt.trans_le stop_le) _) ?_)
    rw [sentMessage_of_catalog prepared, downloadStep_encode file.name_ne_zero file.length_le rfl]
    dsimp only
    rw [downloadFile_data complete]
    simp only [downloadAt, dbAt, logAt_succ here, sentMessage_of_catalog prepared,
      List.foldl_append, List.foldl_cons, List.foldl_nil]
  · intro attempt file _ here prepared leads rest
    have inside := (List.getElem?_eq_some_iff.mp here).1
    rw [logAt_retry, logAt_succ here, List.flatMap_append, List.flatMap_singleton,
      List.append_assoc]
    refine (leads _).trans (LeadsTo.step (downloadGuard_downloadAt num_eq inside _) ?_)
    rw [sentMessage_of_overFull prepared, downloadStep_encode file.name_ne_zero file.length_le rfl]
    simp only [downloadFile, downloadAt, dbAt, logAt_retry, logAt_succ here,
      sentMessage_of_overFull prepared, List.foldl_append, List.foldl_cons, List.foldl_nil,
      FileMessage.apply, List.nil_append]
    rfl

end Runs

section Storage

variable {parameters : Parameters} {encrypted : Bool} {keys : ℕ → Keys parameters}
variable {folder : Folder} {db : Db} {attempt k j : ℕ} {file : VcfFile} {name : List UInt8}

theorem foldl_write_of_ne {other : List UInt8} (apart : other ≠ name)
    (entries : List (List UInt8)) (db : Db) :
    entries.foldl (fun db recvBuff => writeToBinFile db name recvBuff) db other = db other := by
  induction entries generalizing db with
  | nil => rfl
  | cons entry entries ih =>
      rw [List.foldl_cons, ih, writeToBinFile, Function.update_of_ne apart]

theorem foldl_write_self (entries : List (List UInt8)) (db : Db) :
    (entries.foldl (fun db recvBuff => writeToBinFile db name recvBuff) db name).getD [] =
      (db name).getD [] ++ entries.flatten := by
  induction entries generalizing db with
  | nil => simp
  | cons entry entries ih =>
      rw [List.foldl_cons, ih, writeToBinFile, Function.update_self, Option.getD_some,
        List.flatten_cons, List.append_assoc]

theorem foldl_write_isSome {entries : List (List UInt8)} {db : Db}
    (written : entries ≠ [] ∨ (db name).isSome) :
    (entries.foldl (fun db recvBuff => writeToBinFile db name recvBuff) db name).isSome := by
  induction entries generalizing db with
  | nil => exact written.resolve_left (fun empty => empty rfl)
  | cons entry entries ih =>
      rw [List.foldl_cons]
      exact ih (Or.inr (by rw [writeToBinFile, Function.update_self]; rfl))

variable (parameters encrypted keys) in
/-- The bytes that an attempt stores for a file. -/
def entriesOf (attempt : ℕ) (file : VcfFile) : List UInt8 :=
  match (sentMessage parameters encrypted keys attempt file).data with
  | none => []
  | some data => data.entries.flatten

theorem entriesOf_ne_nil (sends : Sends parameters keys attempt file) :
    entriesOf parameters encrypted keys attempt file ≠ [] := by
  rcases sends with ⟨catalog, prepared⟩
  rcases prepare_fits prepared with ⟨length_eq, fits⟩
  have size_pos := parameters.max_bytesize_pos
  have catalog_pos : 0 < catalog.length := by
    rw [length_eq]
    exact Nat.two_pow_pos _
  rw [entriesOf, sentMessage_of_catalog prepared]
  dsimp only [fileData]
  intro empty
  have block_mem : entryBlock parameters encrypted (keys attempt) file.name 0 catalog[0] ∈
      catalog.mapIdx (entryBlock parameters encrypted (keys attempt) file.name) :=
    List.mem_mapIdx.mpr ⟨0, catalog_pos, rfl⟩
  have block_length := length_of_mem_entries fits block_mem
  rw [List.flatten_eq_nil_iff.mp empty _ block_mem, List.length_nil] at block_length
  omega

variable (parameters encrypted keys folder db) in
/-- What is left of a file when an attempt begins. -/
def leftover (attempt j : ℕ) (file : VcfFile) : List UInt8 :=
  if file.name.head? = some 46 then
    (db file.name).getD [] ++ (List.range attempt).flatMap fun earlier =>
      if j < stop parameters keys folder earlier then
        entriesOf parameters encrypted keys earlier file
      else []
  else []

theorem leftover_succ : leftover parameters encrypted keys folder db (attempt + 1) j file =
    if file.name.head? = some 46 then
      leftover parameters encrypted keys folder db attempt j file ++
        if j < stop parameters keys folder attempt then
          entriesOf parameters encrypted keys attempt file
        else []
    else [] := by
  rw [leftover, leftover]
  split
  · rw [List.range_succ, List.flatMap_append, List.flatMap_singleton, List.append_assoc]
  · rfl

theorem dbAt_succ (here : folder.files[k]? = some file) {catalog : List (List Char)}
    (prepared : prepare parameters (keys attempt) file = some (some catalog)) :
    dbAt parameters encrypted keys folder db attempt (k + 1) =
      (fileData parameters encrypted (keys attempt) file.name catalog).entries.foldl
        (fun db recvBuff => writeToBinFile db file.name recvBuff)
        (dbAt parameters encrypted keys folder db attempt k) := by
  rw [dbAt, logAt_succ here, sentMessage_of_catalog prepared, List.foldl_append, List.foldl_cons,
    List.foldl_nil, dbAt, FileMessage.apply]

theorem dbAt_retry (here : folder.files[stop parameters keys folder attempt]? = some file)
    (prepared : prepare parameters (keys attempt) file = some none) :
    dbAt parameters encrypted keys folder db (attempt + 1) 0 =
      removeDB (dbAt parameters encrypted keys folder db attempt
        (stop parameters keys folder attempt)) := by
  rw [dbAt, logAt_retry, logAt_succ here, sentMessage_of_overFull prepared, List.foldl_append,
    List.foldl_cons, List.foldl_nil, dbAt, FileMessage.apply]

theorem name_ne_of_ne {other : VcfFile} {place : ℕ} (here : folder.files[j]? = some file)
    (there : folder.files[place]? = some other) (apart : j ≠ place) : file.name ≠ other.name := by
  intro same
  rcases List.getElem?_eq_some_iff.mp here with ⟨j_lt, file_eq⟩
  rcases List.getElem?_eq_some_iff.mp there with ⟨place_lt, other_eq⟩
  apply apart
  apply (@List.Nodup.getElem_inj_iff _ _ folder.distinct j (by rwa [List.length_map]) place
    (by rwa [List.length_map])).mp
  rw [List.getElem_map, List.getElem_map, file_eq, other_eq, same]

/-- What a file holds: the rest of earlier attempts, followed by what this attempt has sent. -/
theorem content_dbAt (reached : Reached parameters keys folder attempt)
    (k_le : k ≤ stop parameters keys folder attempt) (file_eq : folder.files[j]? = some file) :
    (dbAt parameters encrypted keys folder db attempt k file.name).getD [] =
      leftover parameters encrypted keys folder db attempt j file ++
        (if j < k then entriesOf parameters encrypted keys attempt file else []) ∧
    (j < k → (dbAt parameters encrypted keys folder db attempt k file.name).isSome) := by
  refine reach_induction (fun attempt k =>
    (dbAt parameters encrypted keys folder db attempt k file.name).getD [] =
      leftover parameters encrypted keys folder db attempt j file ++
        (if j < k then entriesOf parameters encrypted keys attempt file else []) ∧
    (j < k → (dbAt parameters encrypted keys folder db attempt k file.name).isSome))
    ?_ ?_ ?_ reached k_le
  · refine ⟨?_, fun j_lt => absurd j_lt (Nat.not_lt_zero j)⟩
    simp only [dbAt, logAt, leftover, removeDB, List.range_zero, List.flatMap_nil,
      List.take_zero, List.map_nil, List.append_nil, List.foldl_nil, Nat.not_lt_zero, if_false]
    split <;> rfl
  · intro attempt k other catalog _ _ here prepared content
    rw [dbAt_succ here prepared]
    by_cases same : j = k
    · subst same
      obtain rfl : file = other := Option.some.inj (file_eq.symm.trans here)
      rw [if_neg (lt_irrefl j), List.append_nil] at content
      have catalog_ne : (fileData parameters encrypted (keys attempt) file.name catalog).entries ≠
          [] := by
        have length_pos : 0 < catalog.length := by
          rw [(prepare_fits prepared).1]
          exact Nat.two_pow_pos _
        simpa [fileData] using List.ne_nil_of_length_pos length_pos
      refine ⟨?_, fun _ => foldl_write_isSome (Or.inl catalog_ne)⟩
      rw [foldl_write_self, content.1, if_pos (Nat.lt_succ_self j), entriesOf,
        sentMessage_of_catalog prepared]
    · have names := name_ne_of_ne file_eq here same
      have bound : j < k + 1 ↔ j < k := by omega
      simp only [foldl_write_of_ne names, bound]
      exact content
  · intro attempt other _ here prepared content
    refine ⟨?_, fun j_lt => absurd j_lt (Nat.not_lt_zero j)⟩
    rw [dbAt_retry here prepared, leftover_succ, removeDB, if_neg (Nat.not_lt_zero j),
      List.append_nil]
    split
    · exact content.1
    · rfl

/-- Nothing else is written. -/
theorem dbAt_of_notMem (reached : Reached parameters keys folder attempt)
    (k_le : k ≤ stop parameters keys folder attempt)
    (unlisted : name ∉ folder.files.map VcfFile.name) :
    dbAt parameters encrypted keys folder db attempt k name = removeDB db name := by
  refine reach_induction (fun attempt k =>
    dbAt parameters encrypted keys folder db attempt k name = removeDB db name)
    ?_ ?_ ?_ reached k_le
  · simp [dbAt, logAt]
  · intro attempt k file catalog _ _ here prepared unchanged
    have apart : name ≠ file.name := by
      rintro rfl
      exact unlisted (List.mem_map_of_mem (List.mem_of_getElem? here))
    rw [dbAt_succ here prepared, foldl_write_of_ne apart, unchanged]
  · intro attempt file _ here prepared unchanged
    rw [dbAt_retry here prepared, removeDB, unchanged, removeDB]
    split <;> rfl

theorem leftover_eq_nil_iff (file_eq : folder.files[j]? = some file) :
    leftover parameters encrypted keys folder db attempt j file = [] ↔
      Fresh parameters keys folder db attempt j file := by
  rw [leftover, Fresh]
  split
  next hidden =>
    rw [List.append_eq_nil_iff, List.flatMap_eq_nil_iff]
    simp only [hidden, forall_const, List.mem_range]
    apply and_congr_right
    intro _
    apply forall₂_congr
    intro earlier before
    split
    next beyond =>
      rcases exists_of_lt_stop beyond with ⟨other, here, sends⟩
      obtain rfl : file = other := Option.some.inj (file_eq.symm.trans here)
      exact iff_of_false (entriesOf_ne_nil sends) (not_le.mpr beyond)
    next within => exact iff_of_true rfl (not_lt.mp within)
  next plain => simp [plain]

end Storage

section Agreement

variable {parameters : Parameters} {encrypted : Bool} {keys : ℕ → Keys parameters}
variable {folder : Folder} {db : Db} {attempt : ℕ} {file : VcfFile} {num_files : UInt64}

/-- The messages of an attempt that sends all files. -/
theorem last_messages :
    (logAt parameters encrypted keys folder attempt folder.files.length).drop
        ((logAt parameters encrypted keys folder attempt folder.files.length).length -
          folder.files.length) =
      folder.files.map (sentMessage parameters encrypted keys attempt) := by
  rw [logAt, List.take_length, List.length_append, List.length_map, Nat.add_sub_cancel,
    List.drop_left]

theorem sentMessage_name (attempt : ℕ) (file : VcfFile) :
    (sentMessage parameters encrypted keys attempt file).name = file.name := by
  rw [sentMessage]
  split <;> rfl

theorem sends_of_stop (all : stop parameters keys folder attempt = folder.files.length) {j : ℕ}
    (here : folder.files[j]? = some file) : Sends parameters keys attempt file := by
  have inside := (List.getElem?_eq_some_iff.mp here).1
  rcases exists_of_lt_stop (all.symm ▸ inside : j < stop parameters keys folder attempt) with
    ⟨other, other_eq, sends⟩
  obtain rfl : file = other := Option.some.inj (here.symm.trans other_eq)
  exact sends

/-- The files are stored exactly if nothing was left of them. -/
theorem stored_iff (reached : Reached parameters keys folder attempt)
    (all : stop parameters keys folder attempt = folder.files.length) :
    Stored parameters folder db
        (logAt parameters encrypted keys folder attempt folder.files.length)
        (dbAt parameters encrypted keys folder db attempt folder.files.length) ↔
      ∀ j file, folder.files[j]? = some file → Fresh parameters keys folder db attempt j file := by
  have content : ∀ {j file}, folder.files[j]? = some file →
      dbAt parameters encrypted keys folder db attempt folder.files.length file.name =
        some (leftover parameters encrypted keys folder db attempt j file ++
          entriesOf parameters encrypted keys attempt file) := by
    intro j file here
    have inside := (List.getElem?_eq_some_iff.mp here).1
    rcases @content_dbAt parameters encrypted keys folder db attempt _ j file reached all.ge
      here with ⟨content, present⟩
    rw [if_pos inside] at content
    rcases Option.isSome_iff_exists.mp (present inside) with ⟨bytes, bytes_eq⟩
    rw [bytes_eq, Option.getD_some] at content
    rw [bytes_eq, content]
  rw [Stored, last_messages]
  constructor
  · rintro ⟨-, stored, -⟩ j file here
    have message_mem : sentMessage parameters encrypted keys attempt file ∈
        folder.files.map (sentMessage parameters encrypted keys attempt) :=
      List.mem_map_of_mem (List.mem_of_getElem? here)
    rcases stored _ message_mem with ⟨data, data_eq, -, -, holds⟩
    have entries_eq : entriesOf parameters encrypted keys attempt file = data.entries.flatten := by
      rw [entriesOf, data_eq]
    rw [sentMessage_name, content here, ← entries_eq, Option.some.injEq,
      List.append_left_eq_self] at holds
    exact (leftover_eq_nil_iff here).mp holds
  · intro fresh
    refine ⟨?_, ?_, fun name unlisted => dbAt_of_notMem reached all.ge unlisted⟩
    · rw [List.map_map]
      exact List.map_congr_left fun file _ => sentMessage_name attempt file
    · intro message message_mem
      rcases List.mem_map.mp message_mem with ⟨file, file_mem, rfl⟩
      rcases List.getElem?_of_mem file_mem with ⟨j, here⟩
      rcases sends_of_stop all here with ⟨catalog, prepared⟩
      rcases prepare_fits prepared with ⟨length_eq, fits⟩
      have clean : leftover parameters encrypted keys folder db attempt j file = [] :=
        (leftover_eq_nil_iff here).mpr (fresh j file here)
      refine ⟨fileData parameters encrypted (keys attempt) file.name catalog, ?_, ?_, ?_, ?_⟩
      · rw [sentMessage_of_catalog prepared]
      · rw [fileData, List.length_mapIdx, length_eq]
      · intro entry entry_mem
        exact length_of_mem_entries fits entry_mem
      · rw [sentMessage_name, content here, clean, List.nil_append, entriesOf,
          sentMessage_of_catalog prepared]

theorem not_uploads_of_malformed (reached : Reached parameters keys folder attempt)
    (malformed : Malformed parameters keys folder attempt) (sent : Uploading) :
    ¬ Uploads parameters encrypted keys folder sent := by
  rcases malformed with ⟨file, here, prepared⟩
  have inside := (List.getElem?_eq_some_iff.mp here).1
  rw [Uploads, (leadsTo_uploadAt reached le_rfl).endsWith_iff]
  apply not_endsWith_of_fails (uploadGuard_uploadAt inside)
  rw [uploadStep_uploadAt here]
  simp [uploadFile, uploadAt, prepared]

theorem uploads_iff_of_all (reached : Reached parameters keys folder attempt)
    (all : stop parameters keys folder attempt = folder.files.length) (sent : Uploading) :
    Uploads parameters encrypted keys folder sent ↔
      sent = uploadAt parameters encrypted keys folder attempt folder.files.length := by
  rw [Uploads, (leadsTo_uploadAt reached all.ge).endsWith_iff]
  apply endsWith_iff_of_stops
  simp [uploadGuard, uploadAt]

theorem uploads_iff_of_overFull (reached : Reached parameters keys folder 4)
    (here : folder.files[stop parameters keys folder 4]? = some file)
    (prepared : prepare parameters (keys 4) file = some none) (sent : Uploading) :
    Uploads parameters encrypted keys folder sent ↔
      sent = uploadAborted parameters encrypted keys folder file := by
  have inside := (List.getElem?_eq_some_iff.mp here).1
  rw [Uploads, ((leadsTo_uploadAt reached le_rfl).trans
    (LeadsTo.step (uploadGuard_uploadAt inside) ?_)).endsWith_iff]
  · apply endsWith_iff_of_stops
    rfl
  · rw [uploadStep_uploadAt here, uploadAt_aborts prepared]

/-- The number of files is cut to 32 bits. -/
theorem readuInt64_wire (rest : List UInt8) :
    readuInt64 (senduInt64 (UInt64.ofNat folder.files.length) ++ rest) =
      some ((UInt64.ofNat folder.files.length).toUInt32.toUInt64, rest) :=
  readuInt64_senduInt64 _ rest

theorem toNat_num_files :
    (UInt64.ofNat folder.files.length).toUInt32.toUInt64.toNat = folder.files.length ↔
      folder.files.length < 2 ^ 32 := by
  rw [UInt32.toNat_toUInt64, UInt64.toNat_toUInt32, UInt64.toNat_ofNat']
  omega

theorem downloads_iff_of_all (num_eq : num_files.toNat = folder.files.length)
    (counted : parameters.hashSize < 31 ∨
      ∀ attempt, Reached parameters keys folder attempt → stop parameters keys folder attempt = 0)
    (reached : Reached parameters keys folder attempt)
    (all : stop parameters keys folder attempt = folder.files.length) (received : Downloading) :
    Downloads num_files db
        ((logAt parameters encrypted keys folder attempt folder.files.length).flatMap
          FileMessage.encode) received ↔
      received =
        downloadAt parameters encrypted keys folder db attempt folder.files.length [] := by
  have leads := @leadsTo_downloadAt parameters encrypted keys folder attempt _ db num_files num_eq
    counted reached all.ge []
  rw [List.append_nil] at leads
  rw [Downloads, leads.endsWith_iff]
  apply endsWith_iff_of_stops
  simp [downloadGuard, downloadAt, num_eq]

variable (parameters encrypted keys folder db) in
/-- The state of the server when the client gives up. -/
def downloadAborted (file : VcfFile) : Downloading :=
  let before := downloadAt parameters encrypted keys folder db 4
    (stop parameters keys folder 4) []
  { before with
    db := removeDB before.db
    received := before.received ++ [⟨file.name, 1, none⟩]
    exited := true }

theorem downloads_of_overFull (num_eq : num_files.toNat = folder.files.length)
    (counted : parameters.hashSize < 31 ∨
      ∀ attempt, Reached parameters keys folder attempt → stop parameters keys folder attempt = 0)
    (reached : Reached parameters keys folder 4)
    (here : folder.files[stop parameters keys folder 4]? = some file) :
    Downloads num_files db
      ((uploadAborted parameters encrypted keys folder file).log.flatMap FileMessage.encode)
      (downloadAborted parameters encrypted keys folder db file) := by
  have inside := (List.getElem?_eq_some_iff.mp here).1
  have leads := @leadsTo_downloadAt parameters encrypted keys folder 4 _ db num_files num_eq
    counted reached le_rfl (FileMessage.encode ⟨file.name, 1, none⟩)
  have step : downloadStep (downloadAt parameters encrypted keys folder db 4
      (stop parameters keys folder 4) (FileMessage.encode ⟨file.name, 1, none⟩)) =
        some (downloadAborted parameters encrypted keys folder db file) := by
    rw [@downloadStep_encode _ ⟨file.name, 1, none⟩ [] file.name_ne_zero file.length_le
      (by rw [downloadAt, List.append_nil]), downloadFile, if_pos rfl]
    rfl
  rw [Downloads, uploadAborted, List.flatMap_append, List.flatMap_singleton]
  refine ((leads.trans
    (LeadsTo.step (downloadGuard_downloadAt num_eq inside _) step)).endsWith_iff).mpr ?_
  exact (endsWith_iff_of_stops rfl).mpr rfl

/-- The server takes less than `2 ^ 31` entries for a file, whatever it is sent. -/
theorem received_few {input : List UInt8} {received : Downloading}
    (downloads : Downloads num_files db input received) :
    ∀ message ∈ received.received, ∀ data, message.data = some data →
      data.entries.length < 2 ^ 31 := by
  rcases downloads with ⟨fuel, returns⟩
  refine whileLoop_invariant (fun state : Downloading => ∀ message ∈ state.received, ∀ data,
    message.data = some data → data.entries.length < 2 ^ 31) ?_
    (by simp [downloadStart]) returns
  intro state next few _ steps
  rw [downloadStep] at steps
  rcases Option.bind_eq_some_iff.mp steps with ⟨⟨len, afterLen⟩, -, steps⟩
  rcases Option.bind_eq_some_iff.mp steps with ⟨⟨filename_c, afterName⟩, -, steps⟩
  dsimp only at steps
  split at steps
  case isFalse => exact absurd steps (by simp)
  rcases Option.bind_eq_some_iff.mp steps with ⟨⟨error, afterCode⟩, -, steps⟩
  dsimp only at steps
  have extended : ∀ message : FileMessage,
      (∀ data, message.data = some data → data.entries.length < 2 ^ 31) →
      ∀ other ∈ state.received ++ [message], ∀ data, other.data = some data →
        data.entries.length < 2 ^ 31 := by
    intro message short other other_mem
    rcases List.mem_append.mp other_mem with before | last
    · exact few other before
    · rw [List.mem_singleton.mp last]
      exact short
  rw [downloadFile] at steps
  split at steps
  · obtain rfl := Option.some.inj steps
    exact extended _ (by simp)
  split at steps
  · obtain rfl := Option.some.inj steps
    exact extended _ (by simp)
  rcases Option.bind_eq_some_iff.mp steps with ⟨⟨max_bytesize, afterSize⟩, -, steps⟩
  rcases Option.bind_eq_some_iff.mp steps with ⟨⟨num_entries, afterCount⟩, -, steps⟩
  rcases Option.map_eq_some_iff.mp steps with ⟨⟨entries, rest⟩, reads, rfl⟩
  apply extended
  rintro data data_eq
  obtain rfl := Option.some.inj data_eq
  rw [readEntries_length reads, rounds]
  split <;> omega

/-- How the client ends, if it ends. -/
theorem uploads_cases {sent : Uploading} (uploads : Uploads parameters encrypted keys folder sent) :
    (∃ attempt, Reached parameters keys folder attempt ∧
      stop parameters keys folder attempt = folder.files.length ∧
      sent = uploadAt parameters encrypted keys folder attempt folder.files.length) ∨
    ∃ file, Reached parameters keys folder 4 ∧
      folder.files[stop parameters keys folder 4]? = some file ∧
      sent = uploadAborted parameters encrypted keys folder file := by
  rcases upload_cases parameters keys folder with ⟨attempt, reached, malformed⟩ |
    ⟨attempt, reached, all⟩ | ⟨reached, file, here, prepared⟩
  · exact absurd uploads (not_uploads_of_malformed reached malformed sent)
  · exact Or.inl ⟨attempt, reached, all, (uploads_iff_of_all reached all sent).mp uploads⟩
  · exact Or.inr
      ⟨file, reached, here, (uploads_iff_of_overFull reached here prepared sent).mp uploads⟩

theorem uploads_wire {sent : Uploading} (uploads : Uploads parameters encrypted keys folder sent) :
    sent.wire = senduInt64 (UInt64.ofNat folder.files.length) ++
      sent.log.flatMap FileMessage.encode := by
  rcases uploads_cases uploads with ⟨attempt, -, -, rfl⟩ | ⟨file, -, -, rfl⟩
  · rfl
  · simp only [uploadAborted, uploadAt, List.flatMap_append, List.flatMap_singleton,
      List.append_assoc]

theorem mem_logAt {last k : ℕ} (here : folder.files[0]? = some file)
    (before : attempt < last ∨ attempt = last ∧ 0 < k) :
    sentMessage parameters encrypted keys attempt file ∈
      logAt parameters encrypted keys folder last k := by
  have first : ∀ {count}, 0 < count → file ∈ folder.files.take count := by
    intro count count_pos
    apply List.mem_of_getElem? (i := 0)
    rw [List.getElem?_take_of_lt count_pos, here]
  rw [logAt, List.mem_append]
  rcases before with earlier | ⟨rfl, k_pos⟩
  · exact Or.inl (List.mem_flatMap.mpr ⟨attempt, List.mem_range.mpr earlier,
      List.mem_map_of_mem (first (Nat.succ_pos _))⟩)
  · exact Or.inr (List.mem_map_of_mem (first k_pos))

/-- A file that has been sent is among the messages of the whole upload. -/
theorem exists_large_message {sent : Uploading}
    (uploads : Uploads parameters encrypted keys folder sent)
    (reached : Reached parameters keys folder attempt)
    (some_sent : stop parameters keys folder attempt ≠ 0) :
    ∃ message ∈ sent.log, ∃ data, message.data = some data ∧
      data.entries.length = 2 ^ parameters.hashSize := by
  rcases exists_of_lt_stop (Nat.pos_of_ne_zero some_sent) with ⟨file, here, catalog, prepared⟩
  have inside := (List.getElem?_eq_some_iff.mp here).1
  refine ⟨sentMessage parameters encrypted keys attempt file, ?_,
    fileData parameters encrypted (keys attempt) file.name catalog,
    by rw [sentMessage_of_catalog prepared],
    by rw [fileData, List.length_mapIdx, (prepare_fits prepared).1]⟩
  rcases uploads_cases uploads with ⟨last, -, all, rfl⟩ | ⟨other, -, -, rfl⟩
  · apply mem_logAt here
    rcases Nat.lt_trichotomy attempt last with earlier | same | later
    · exact Or.inl earlier
    · exact Or.inr ⟨same, inside⟩
    · rcases reached.2 last later with ⟨other, there, -⟩
      have bound := (List.getElem?_eq_some_iff.mp there).1
      omega
  · apply List.mem_append_left
    apply mem_logAt here
    have attempt_lt := reached.1
    rcases Nat.lt_or_ge attempt 4 with earlier | last
    · exact Or.inl earlier
    · obtain rfl : attempt = 4 := by omega
      exact Or.inr ⟨rfl, Nat.pos_of_ne_zero some_sent⟩

theorem Clean.inStep (clean : Clean parameters keys folder db) :
    InStep parameters encrypted keys folder db := by
  rcases clean with ⟨few, counted, attempts⟩
  have num_eq := toNat_num_files.mpr few
  rcases upload_cases parameters keys folder with ⟨attempt, reached, malformed⟩ |
    ⟨attempt, reached, all⟩ | ⟨reached, file, here, prepared⟩
  · exact absurd malformed (attempts attempt reached).1
  · refine ⟨_, _, _, _, (uploads_iff_of_all reached all _).mpr rfl, readuInt64_wire _, num_eq,
      (downloads_iff_of_all num_eq counted reached all _).mpr rfl, rfl, rfl, rfl, fun _ => ?_⟩
    exact (stored_iff reached all).mpr ((attempts attempt reached).2 all)
  · have uploads : Uploads parameters encrypted keys folder
        (uploadAborted parameters encrypted keys folder file) :=
      (uploads_iff_of_overFull reached here prepared _).mpr rfl
    refine ⟨_, _, _, _, uploads, ?_, num_eq, downloads_of_overFull num_eq counted reached here,
      rfl, rfl, rfl, ?_⟩
    · rw [uploads_wire uploads]
      exact readuInt64_wire _
    · rintro ⟨⟩

theorem InStep.clean (inStep : InStep parameters encrypted keys folder db) :
    Clean parameters keys folder db := by
  rcases inStep with ⟨sent, num_files, input, received, uploads, counts, num_eq, downloads, same,
    -, -, stored⟩
  rw [uploads_wire uploads, readuInt64_wire, Option.some.injEq, Prod.mk.injEq] at counts
  rcases counts with ⟨rfl, rfl⟩
  have counted : parameters.hashSize < 31 ∨ ∀ attempt, Reached parameters keys folder attempt →
      stop parameters keys folder attempt = 0 := by
    by_contra many
    rw [not_or] at many
    rcases many with ⟨large, many⟩
    push Not at many
    rcases many with ⟨attempt, reached, some_sent⟩
    rcases exists_large_message uploads reached some_sent with
      ⟨message, message_mem, data, data_eq, length_eq⟩
    have length_lt := received_few downloads message (same ▸ message_mem) data data_eq
    have length_le : 2 ^ 31 ≤ 2 ^ parameters.hashSize :=
      Nat.pow_le_pow_right (by decide) (not_lt.mp large)
    omega
  refine ⟨toNat_num_files.mp num_eq, counted, fun attempt reached => ⟨?_, fun all => ?_⟩⟩
  · exact fun malformed => not_uploads_of_malformed reached malformed sent uploads
  · obtain rfl := (uploads_iff_of_all reached all sent).mp uploads
    obtain rfl := (downloads_iff_of_all num_eq counted reached all received).mp downloads
    exact (stored_iff reached all).mp (stored rfl)

/--
Both ends stay in step and the files are stored exactly if the messages can hold the
number of files and of entries, no attempt comes to a line with too few columns, and
nothing is left of a file when its last attempt begins.
-/
theorem inStep_iff (parameters : Parameters) (encrypted : Bool) (keys : ℕ → Keys parameters)
    (folder : Folder) (db : Db) :
    InStep parameters encrypted keys folder db ↔ Clean parameters keys folder db :=
  ⟨InStep.clean, Clean.inStep⟩

end Agreement

section Example

/-- Two entries of one slot, which holds one byte. -/
def tiny : Parameters := ⟨1, 1, 1, by decide, by decide⟩

def lowHash : BitString 1 := ⟨['0', '0', '0', '0', '0', '0', '0', '0'], rfl, by simp⟩

def highHash : BitString 1 := ⟨['1', '0', '0', '0', '0', '0', '0', '0'], rfl, by simp⟩

/-- Both variants fall into one entry at first, and into different entries afterwards. -/
def collidingKeys (attempt : ℕ) : Keys tiny where
  hash text := if attempt = 0 ∨ text = ['1', '2', 'A', 'T'] then lowHash else highHash
  aes := id
  nonce _ := Vector.replicate 8 0

/-- The file `.a.vcf`, which holds no variants. -/
def dotFile : VcfFile where
  name := [46, 97, 46, 118, 99, 102]
  lines := []
  listed := ⟨[46, 97], [], rfl⟩
  plain := by simp
  length_le := by decide

/-- The file `b.vcf`, which holds two variants. -/
def variantFile : VcfFile where
  name := [98, 46, 118, 99, 102]
  lines := [['1', '\t', '2', '\t', '.', '\t', 'A', '\t', 'T'],
    ['1', '\t', '3', '\t', '.', '\t', 'A', '\t', 'T']]
  listed := ⟨[98], [], rfl⟩
  plain := by simp
  length_le := by decide

def dotFolder : Folder := ⟨[dotFile, variantFile], by decide⟩

/-- The second attempt succeeds, and appends the first file to what the first attempt has left. -/
theorem not_inStep_retry : ¬ InStep tiny true collidingKeys dotFolder (fun _ => none) := by
  intro inStep
  have reached : Reached tiny collidingKeys dotFolder 1 := by
    refine ⟨by decide, fun earlier before => ?_⟩
    obtain rfl : earlier = 0 := by omega
    exact ⟨variantFile, rfl, by decide⟩
  have all : stop tiny collidingKeys dotFolder 1 = dotFolder.files.length := by decide
  have fresh := (inStep.clean.2.2 1 reached).2 all 0 dotFile rfl rfl
  exact absurd (fresh.2 0 (by decide)) (by decide)

end Example

end Xpir.Upload
