import Mathlib.Algebra.Order.Floor.Semiring
import Xpir.DBHandlers.AggregatedStream
import Xpir.Foundations.ByteStream
import Xpir.Foundations.Rounding

/-!
# The trivial reply generator

Without cryptography the reply is the whole database. This file contains the import
of the files into one buffer, back to back, the replies that are cut out of it, and
`generateReplyGeneric`, which imports the data once only but frees the buffer whenever
it is not asked to keep it.

The number of chunks is computed in `double` from the bytes that a chunk absorbs. These
are whole bytes in `importData`, but not in the number that is announced. The offsets of
the chunks in the buffer are computed with 32 bits.
-/

namespace Xpir

/-- What the trivial generator knows of the database and the cryptosystem. -/
structure TrivialDatabase where
  streams : List FileStream
  maxFileBytesize : ℕ
  absorptionBitsize : ℕ
  length_le : ∀ stream ∈ streams, stream.bytes.length ≤ maxFileBytesize
  absorptionBitsize_lt : absorptionBitsize < 2 ^ 32
  eight_le : 8 ≤ absorptionBitsize

/-- The variables of the generator; `input_data` is missing when it points to no block. -/
structure TrivialGenerator where
  firstTimeImport : Bool
  inputData : Option (ℕ → UInt8)
  totalNbChunks : ℕ

namespace TrivialDatabase

variable (db : TrivialDatabase)

def nbStream : ℕ := db.streams.length

/-- `size`, the whole bytes that a chunk absorbs. -/
def size : ℕ := db.absorptionBitsize / 8

/-- `(double) maxFileBytesize * getNbStream()`. -/
def databaseBytesize : ℚ := toDouble (toDouble db.maxFileBytesize * toDouble db.nbStream)

/-- The number of chunks that are imported. -/
def totalNbChunks : ℕ := ⌈toDouble (db.databaseBytesize / toDouble db.size)⌉₊

def computeReplySizeInChunks : ℕ :=
  ⌈toDouble (db.databaseBytesize / toDouble (toDouble db.absorptionBitsize / toDouble 8))⌉₊

/-- The bytes of the buffer. -/
def capacity : ℕ := db.size * db.totalNbChunks % 2 ^ 64

/--
The files are read one after another into a buffer of zeros. A number of chunks that is
no `uint64_t`, and a file that does not fit into the buffer, have no result.
-/
def importData (fuel : ℕ) : Option (ℕ → UInt8) :=
  if db.totalNbChunks < 2 ^ 64 then
    (counterLoop (2 ^ 32) fuel db.nbStream (fun i (state : ℕ × (ℕ → UInt8)) =>
      if state.1 + db.maxFileBytesize ≤ db.capacity then
        (db.streams[i]?).bind fun stream =>
          (readStream fuel stream 0 state.2 state.1 db.maxFileBytesize).map fun bytes =>
            (state.1 + db.maxFileBytesize, bytes)
      else none) (0, fun _ => 0)).map Prod.snd
  else none

/-- The bytes at `input_data + j * size`, where the product is an `unsigned int`. -/
def chunk (data : ℕ → UInt8) (j : ℕ) : List UInt8 :=
  (List.range db.size).map fun byte => data (j * db.size % 2 ^ 32 + byte)

def generateReply (fuel : ℕ) (generator : TrivialGenerator) : Option (List (List UInt8)) :=
  counterLoop (2 ^ 32) fuel generator.totalNbChunks (fun j repliesArray =>
    generator.inputData.map fun data => repliesArray ++ [db.chunk data j]) []

/-- The data are imported by the first call only. -/
def importOnce (fuel : ℕ) (generator : TrivialGenerator) : Option TrivialGenerator :=
  if generator.firstTimeImport then
    (db.importData fuel).map fun data =>
      { firstTimeImport := false, inputData := some data, totalNbChunks := db.totalNbChunks }
  else some generator

/-- `free(input_data)`. -/
def releaseData (generator : TrivialGenerator) : Option TrivialGenerator :=
  if generator.inputData.isSome then some { generator with inputData := none } else none

def generateReplyGeneric (fuel : ℕ) (keepImportedData : Bool) (generator : TrivialGenerator) :
    Option (TrivialGenerator × List (List UInt8)) :=
  (db.importOnce fuel generator).bind fun generator =>
    (db.generateReply fuel generator).bind fun reply =>
      if keepImportedData then some (generator, reply)
      else (releaseData generator).map fun generator => (generator, reply)

/-- The replies of a sequence of calls. -/
def generateReplies (fuel : ℕ) : TrivialGenerator → List Bool → Option (List (List (List UInt8)))
  | _, [] => some []
  | generator, keepImportedData :: calls =>
      (db.generateReplyGeneric fuel keepImportedData generator).bind fun next =>
        (generateReplies fuel next.1 calls).map fun replies => next.2 :: replies

def fresh : TrivialGenerator where
  firstTimeImport := true
  inputData := none
  totalNbChunks := 0

/-- The files in order, each padded with zeros. -/
def contents : List UInt8 :=
  db.streams.flatMap fun stream =>
    stream.bytes ++ List.replicate (db.maxFileBytesize - stream.bytes.length) 0

structure IsWholeDatabase (reply : List (List UInt8)) : Prop where
  count : reply.length = db.computeReplySizeInChunks
  width : ∀ chunk ∈ reply, chunk.length = db.size
  bytes : ∃ padding, reply.flatten = db.contents ++ List.replicate padding 0

/-- With enough rounds for its loops, every call ends and returns the whole database. -/
def ReturnsWholeDatabase (calls : List Bool) : Prop :=
  ∃ bound, ∀ fuel, bound ≤ fuel → ∃ replies, db.generateReplies fuel fresh calls = some replies ∧
    ∀ reply ∈ replies, db.IsWholeDatabase reply

/-- When a single reply is the whole database. -/
structure Returnable : Prop where
  nbStream_lt : db.nbStream < 2 ^ 32
  totalNbChunks_lt : db.totalNbChunks < 2 ^ 32
  /-- The chunks are not too few for the files. -/
  covers : db.contents.length ≤ db.size * db.totalNbChunks
  /-- No integer lies between the quotients by the two sizes of a chunk. -/
  unseparated : ∀ count : ℕ,
    toDouble (db.databaseBytesize / toDouble (toDouble db.absorptionBitsize / toDouble 8)) ≤ count →
      toDouble (db.databaseBytesize / toDouble db.size) ≤ count
  /-- Where the offset of a chunk wraps, the same bytes stand at both places. -/
  wraps : ∀ j < db.totalNbChunks, ∀ byte < db.size,
    db.contents.getD (j * db.size % 2 ^ 32 + byte) 0 = db.contents.getD (j * db.size + byte) 0

/-- No call comes after the data have been freed, except calls without any data to read. -/
def KeptInTime (calls : List Bool) : Prop :=
  (∀ keep ∈ calls.dropLast, keep = true) ∨ db.contents = [] ∧ calls.count false ≤ 1

/-! ## The import -/

theorem size_pos : 0 < db.size := by
  have eight_le := db.eight_le
  rw [size]
  omega

theorem size_lt : db.size < 2 ^ 29 := by
  have absorption_lt := db.absorptionBitsize_lt
  rw [size]
  omega

theorem length_padded {stream : FileStream} (stream_mem : stream ∈ db.streams) :
    (stream.bytes ++
      List.replicate (db.maxFileBytesize - stream.bytes.length) 0).length = db.maxFileBytesize := by
  have length_le := db.length_le stream stream_mem
  rw [List.length_append, List.length_replicate]
  omega

theorem length_contents : db.contents.length = db.nbStream * db.maxFileBytesize := by
  rw [contents, List.length_flatMap, nbStream, List.sum_eq_card_nsmul]
  · rw [List.length_map, smul_eq_mul]
  · intro length length_mem
    rcases List.mem_map.mp length_mem with ⟨stream, stream_mem, rfl⟩
    exact db.length_padded stream_mem

/-- The bytes of a file stand at its place among the contents. -/
theorem getD_contents {i byte : ℕ} {stream : FileStream} (here : db.streams[i]? = some stream)
    (byte_lt : byte < db.maxFileBytesize) :
    db.contents.getD (i * db.maxFileBytesize + byte) 0 = stream.byteAt byte := by
  have padded : ∀ stream ∈ db.streams, (stream.bytes ++
      List.replicate (db.maxFileBytesize - stream.bytes.length) 0).length = db.maxFileBytesize :=
    fun stream stream_mem => db.length_padded stream_mem
  rw [contents]
  generalize db.streams = streams at here padded
  induction streams generalizing i with
  | nil => exact absurd here (by simp)
  | cons first streams ih =>
      have first_length := padded first List.mem_cons_self
      rw [List.flatMap_cons]
      cases i with
      | zero =>
          rw [List.getElem?_cons_zero, Option.some.injEq] at here
          subst here
          rw [Nat.zero_mul, Nat.zero_add, List.getD_append _ _ _ _ (by rwa [first_length]),
            FileStream.byteAt]
          rcases lt_or_ge byte first.bytes.length with inside | outside
          · rw [List.getD_append _ _ _ _ inside]
          · rw [List.getD_append_right _ _ _ _ outside, List.getD_eq_default _ _ outside,
              List.getD_replicate _ (by omega)]
      | succ i =>
          rw [List.getElem?_cons_succ] at here
          rw [Nat.succ_mul, Nat.add_right_comm,
            List.getD_append_right _ _ _ _ (by rw [first_length]; omega), first_length,
            Nat.add_sub_cancel]
          exact ih here fun stream stream_mem =>
            padded stream (List.mem_cons_of_mem first stream_mem)

/-- The buffer after some files have been read. -/
structure Imported (i : ℕ) (state : ℕ × (ℕ → UInt8)) : Prop where
  dataptr : state.1 = i * db.maxFileBytesize
  inside : i * db.maxFileBytesize ≤ db.capacity
  bytes : ∀ index, state.2 index =
    if index < i * db.maxFileBytesize then db.contents.getD index 0 else 0

theorem Imported.step {db : TrivialDatabase} {i : ℕ} {state : ℕ × (ℕ → UInt8)}
    {stream : FileStream} {bytes : ℕ → UInt8} (imported : db.Imported i state)
    (here : db.streams[i]? = some stream) (fits : state.1 + db.maxFileBytesize ≤ db.capacity)
    (read : ∀ index, bytes index =
      if state.1 ≤ index ∧ index < state.1 + db.maxFileBytesize then
        stream.byteAt (0 + (index - state.1)) else state.2 index) :
    db.Imported (i + 1) (state.1 + db.maxFileBytesize, bytes) := by
  have dataptr := imported.dataptr
  have next : (i + 1) * db.maxFileBytesize = i * db.maxFileBytesize + db.maxFileBytesize :=
    Nat.succ_mul _ _
  constructor
  · simp only [dataptr, next]
  · omega
  · intro index
    simp only [read]
    by_cases now : state.1 ≤ index ∧ index < state.1 + db.maxFileBytesize
    · have content := db.getD_contents here (show index - state.1 < db.maxFileBytesize by omega)
      rw [show i * db.maxFileBytesize + (index - state.1) = index by omega] at content
      rw [if_pos now, if_pos (by omega), content, Nat.zero_add]
    · rw [if_neg now, imported.bytes index]
      congr 1
      simp only [eq_iff_iff]
      omega

/-- The body of the loop reads the next file, if there is room for it. -/
theorem import_round {fuel i : ℕ} {state : ℕ × (ℕ → UInt8)} (enough : db.maxFileBytesize < fuel)
    (i_lt : i < db.nbStream) (imported : db.Imported i state) :
    ∃ next, (db.streams[i]?).bind (fun stream =>
      (readStream fuel stream 0 state.2 state.1 db.maxFileBytesize).map fun bytes =>
        (state.1 + db.maxFileBytesize, bytes)) = some next ∧
      (state.1 + db.maxFileBytesize ≤ db.capacity → db.Imported (i + 1) next) := by
  have here : db.streams[i]? = some db.streams[i] := List.getElem?_eq_getElem i_lt
  rcases readStream_eq db.streams[i] 0 state.2 state.1 db.maxFileBytesize enough with
    ⟨bytes, runs, read⟩
  refine ⟨_, by rw [here, Option.bind_some, runs, Option.map_some], ?_⟩
  intro fits
  exact imported.step here fits read

theorem imported_start : db.Imported 0 (0, fun _ => 0) := by
  constructor
  · simp
  · simp
  · intro index
    rw [if_neg (by omega)]

theorem Imported.eq_contents {db : TrivialDatabase} {state : ℕ × (ℕ → UInt8)}
    (imported : db.Imported db.nbStream state) : state.2 = fun index => db.contents.getD index 0 := by
  funext index
  rw [imported.bytes index]
  split
  · rfl
  · next outside =>
      rw [← length_contents] at outside
      exact (List.getD_eq_default _ _ (not_lt.mp outside)).symm

/-- The import succeeds if its counter can reach the number of files and they fit. -/
theorem importData_eq {fuel : ℕ} (nbStream_lt : db.nbStream < fuel)
    (size_lt : db.maxFileBytesize < fuel) :
    db.importData fuel =
      if db.nbStream < 2 ^ 32 ∧ db.totalNbChunks < 2 ^ 64 ∧ db.contents.length ≤ db.capacity then
        some fun index => db.contents.getD index 0
      else none := by
  rw [importData]
  by_cases chunks_lt : db.totalNbChunks < 2 ^ 64
  · rw [if_pos chunks_lt]
    by_cases counted : db.nbStream < 2 ^ 32
    · by_cases fits : db.contents.length ≤ db.capacity
      · rw [if_pos ⟨counted, chunks_lt, fits⟩]
        rw [length_contents] at fits
        rcases counterLoop_total (2 ^ 32) fuel db.nbStream (fun i (state : ℕ × (ℕ → UInt8)) =>
          if state.1 + db.maxFileBytesize ≤ db.capacity then
            (db.streams[i]?).bind fun stream =>
              (readStream fuel stream 0 state.2 state.1 db.maxFileBytesize).map fun bytes =>
                (state.1 + db.maxFileBytesize, bytes)
          else none) (0, fun _ => 0) db.Imported db.imported_start
          (by
            intro i state i_lt imported
            have room : (i + 1) * db.maxFileBytesize ≤ db.nbStream * db.maxFileBytesize :=
              Nat.mul_le_mul_right _ i_lt
            rw [Nat.succ_mul] at room
            have dataptr := imported.dataptr
            rcases db.import_round size_lt i_lt imported with ⟨next, steps, after⟩
            have fits' : state.1 + db.maxFileBytesize ≤ db.capacity := by omega
            exact ⟨next, by rw [if_pos fits', steps], after fits'⟩)
          counted nbStream_lt with ⟨final, runs, imported⟩
        rw [runs, Option.map_some, imported.eq_contents]
      · rw [if_neg (by tauto), Option.map_eq_none_iff, Option.eq_none_iff_forall_ne_some]
        intro final runs
        have imported := counterLoop_invariant db.Imported counted
          (by
            intro i state next i_lt imported steps
            split at steps
            · next room =>
                rcases db.import_round size_lt i_lt imported with ⟨other, steps', after⟩
                rw [steps, Option.some.injEq] at steps'
                rw [steps']
                exact after room
            · exact absurd steps (by simp)) db.imported_start runs
        rw [length_contents] at fits
        exact fits imported.inside
    · rw [counterLoop_eq_none (by decide) (not_lt.mp counted), if_neg (by tauto), Option.map_none]
  · rw [if_neg chunks_lt, if_neg (by tauto)]

/-! ## A reply -/

/-- The chunks that the buffer with the whole database is cut into. -/
def reply : List (List UInt8) :=
  (List.range db.totalNbChunks).map (db.chunk fun index => db.contents.getD index 0)

theorem generateReply_eq {fuel : ℕ} {generator : TrivialGenerator} {data : ℕ → UInt8}
    (enough : generator.totalNbChunks < fuel) (here : generator.inputData = some data) :
    db.generateReply fuel generator =
      if generator.totalNbChunks < 2 ^ 32 then
        some ((List.range generator.totalNbChunks).map (db.chunk data))
      else none := by
  rw [generateReply, here]
  by_cases counted : generator.totalNbChunks < 2 ^ 32
  · rcases counterLoop_total (2 ^ 32) fuel generator.totalNbChunks
      (fun j repliesArray => (some data).map fun data => repliesArray ++ [db.chunk data j]) []
      (fun i repliesArray => repliesArray = (List.range i).map (db.chunk data)) rfl
      (by
        rintro i repliesArray _ rfl
        exact ⟨_, rfl, by rw [List.range_succ, List.map_append, List.map_singleton]⟩)
      counted enough with ⟨final, runs, rfl⟩
    rw [runs, if_pos counted]
  · rw [counterLoop_eq_none (by decide) (not_lt.mp counted), if_neg counted]

/-- Without a buffer there is a reply only if it has no chunks. -/
theorem generateReply_eq_of_released {fuel : ℕ} {generator : TrivialGenerator}
    (enough : 0 < fuel) (released : generator.inputData = none) :
    db.generateReply fuel generator =
      if generator.totalNbChunks = 0 then some [] else none := by
  rw [generateReply, released]
  by_cases empty : generator.totalNbChunks = 0
  · rw [if_pos empty, empty]
    rcases counterLoop_total (2 ^ 32) fuel 0
      (fun j repliesArray => (none : Option (ℕ → UInt8)).map fun data =>
        repliesArray ++ [db.chunk data j]) [] (fun _ repliesArray => repliesArray = []) rfl
      (by omega) (by decide) enough with ⟨final, runs, rfl⟩
    exact runs
  · rw [if_neg empty, Option.eq_none_iff_forall_ne_some]
    intro final runs
    rcases lt_or_ge generator.totalNbChunks (2 ^ 32) with counted | large
    · have stuck := counterLoop_invariant (fun i _ => i = 0) counted
        (by
          intro i repliesArray next _ _ steps
          exact absurd steps (by simp)) rfl runs
      exact empty stuck
    · rw [counterLoop_eq_none (by decide) large] at runs
      exact absurd runs (by simp)

theorem isWholeDatabase_reply_iff (covers : db.contents.length ≤ db.size * db.totalNbChunks) :
    db.IsWholeDatabase db.reply ↔ db.totalNbChunks = db.computeReplySizeInChunks ∧
      ∀ j < db.totalNbChunks, ∀ byte < db.size,
        db.contents.getD (j * db.size % 2 ^ 32 + byte) 0 =
          db.contents.getD (j * db.size + byte) 0 := by
  have whole := map_range_getD db.contents (show db.contents.length ≤
    db.totalNbChunks * db.size by rwa [mul_comm])
  have flattened : db.reply.flatten = (List.range db.totalNbChunks).flatMap (fun j =>
      (List.range db.size).map fun byte =>
        db.contents.getD (j * db.size % 2 ^ 32 + byte) 0) := by
    rw [reply, List.flatMap_def]
    rfl
  have length_eq : db.reply.length = db.totalNbChunks := by simp [reply]
  constructor
  · rintro ⟨count, _, padding, bytes⟩
    refine ⟨by rw [← length_eq, count], ?_⟩
    have lengths := congrArg List.length bytes
    rw [flattened, length_flatMap_blocks, List.length_append, List.length_replicate] at lengths
    have padded : padding = db.totalNbChunks * db.size - db.contents.length := by omega
    rw [flattened, padded, ← whole] at bytes
    exact flatMap_blocks_iff.mp bytes
  · rintro ⟨count, agree⟩
    constructor
    · rw [length_eq, count]
    · intro chunk chunk_mem
      rcases List.mem_map.mp chunk_mem with ⟨j, _, rfl⟩
      simp [TrivialDatabase.chunk]
    · refine ⟨db.totalNbChunks * db.size - db.contents.length, ?_⟩
      rw [flattened, ← whole]
      exact flatMap_blocks agree

/-! ## The number of chunks -/

theorem toDouble_size : toDouble db.size = db.size :=
  toDouble_natCast (db.size_lt.trans (by norm_num))

/-- A quotient by eight is a `double`. -/
theorem toDouble_absorption :
    toDouble (toDouble db.absorptionBitsize / toDouble 8) = db.absorptionBitsize / 8 := by
  have eight_le := db.eight_le
  have absorption_lt := db.absorptionBitsize_lt
  have absorption_pos : (0 : ℚ) < db.absorptionBitsize := by exact_mod_cast (by omega)
  have exact_absorption : toDouble db.absorptionBitsize = db.absorptionBitsize :=
    toDouble_natCast (absorption_lt.trans (by norm_num))
  have exact_eight : toDouble 8 = 8 := by
    exact_mod_cast toDouble_natCast (show 8 < 2 ^ 53 by norm_num)
  have scaled := @roundTo_mul_zpow 53 _ absorption_pos (-3)
  have eighth : (2 : ℚ) ^ (-3 : ℤ) = 1 / 8 := by norm_num
  rw [eighth, mul_one_div, mul_one_div] at scaled
  rw [exact_absorption, exact_eight]
  exact scaled.trans (congrArg (· / 8) exact_absorption)

/-- The whole bytes of a chunk are not more than its bits. -/
theorem quotient_le :
    db.databaseBytesize / (db.absorptionBitsize / 8) ≤ db.databaseBytesize / db.size := by
  have nonneg : 0 ≤ db.databaseBytesize :=
    roundTo_nonneg (mul_nonneg (roundTo_nonneg (Nat.cast_nonneg _))
      (roundTo_nonneg (Nat.cast_nonneg _)))
  have whole : (db.size : ℚ) * 8 ≤ db.absorptionBitsize := by
    exact_mod_cast Nat.div_mul_le_self db.absorptionBitsize 8
  apply div_le_div_of_nonneg_left nonneg
  · exact_mod_cast db.size_pos
  · linarith

theorem sameCount_iff :
    db.totalNbChunks = db.computeReplySizeInChunks ↔ ∀ count : ℕ,
      toDouble (db.databaseBytesize / toDouble (toDouble db.absorptionBitsize / toDouble 8)) ≤
        count → toDouble (db.databaseBytesize / toDouble db.size) ≤ count := by
  constructor
  · intro same count le
    rw [← Nat.ceil_le] at le ⊢
    exact same.trans_le le
  · intro unseparated
    apply le_antisymm
    · exact Nat.ceil_le.mpr (unseparated _ (Nat.le_ceil _))
    · apply Nat.ceil_le.mpr
      have quotient_le := db.quotient_le
      have below := Nat.le_ceil (toDouble (db.databaseBytesize / toDouble db.size))
      rw [db.toDouble_absorption]
      rw [db.toDouble_size] at below
      rcases lt_or_ge 0 (db.databaseBytesize / (db.absorptionBitsize / 8)) with pos | nonpos
      · rw [totalNbChunks, db.toDouble_size, toDouble, roundTo_le_natCast_iff (by decide) pos]
        exact ((roundTo_le_natCast_iff (by decide) (pos.trans_le quotient_le)).mp below).of_le
          quotient_le
      · exact (roundTo_nonpos nonpos).trans (Nat.cast_nonneg _)

theorem capacity_eq (chunks_lt : db.totalNbChunks < 2 ^ 32) :
    db.capacity = db.size * db.totalNbChunks := by
  apply Nat.mod_eq_of_lt
  calc db.size * db.totalNbChunks ≤ 2 ^ 29 * 2 ^ 32 :=
        Nat.mul_le_mul db.size_lt.le chunks_lt.le
    _ < 2 ^ 64 := by norm_num

theorem contents_eq_nil_iff (covers : db.contents.length ≤ db.size * db.totalNbChunks) :
    db.contents = [] ↔ db.totalNbChunks = 0 := by
  constructor
  · intro empty
    have product : db.nbStream * db.maxFileBytesize = 0 := by
      rw [← length_contents, empty, List.length_nil]
    have bytesize : db.databaseBytesize = 0 := by
      rcases Nat.mul_eq_zero.mp product with none | none
      · simp [databaseBytesize, none, toDouble, roundTo, roundHalfEven]
      · simp [databaseBytesize, none, toDouble, roundTo, roundHalfEven]
    rw [totalNbChunks, bytesize, zero_div]
    simp [toDouble, roundTo, roundHalfEven]
  · intro none
    rw [none, Nat.mul_zero, Nat.le_zero, List.length_eq_zero_iff] at covers
    exact covers

/-! ## Sequences of calls -/

/-- The generator after the import, and after the buffer has been freed. -/
def loaded : TrivialGenerator where
  firstTimeImport := false
  inputData := some fun index => db.contents.getD index 0
  totalNbChunks := db.totalNbChunks

def released : TrivialGenerator where
  firstTimeImport := false
  inputData := none
  totalNbChunks := db.totalNbChunks

section Calls

variable {fuel : ℕ} {calls : List Bool}

/-- All replies of a sequence of calls exist and are the whole database. -/
def Answers (fuel : ℕ) (generator : TrivialGenerator) (calls : List Bool) : Prop :=
  ∃ replies, db.generateReplies fuel generator calls = some replies ∧
    ∀ reply ∈ replies, db.IsWholeDatabase reply

theorem answers_nil (generator : TrivialGenerator) : db.Answers fuel generator [] :=
  ⟨[], rfl, by simp⟩

theorem answers_cons_iff {keep : Bool} {generator next : TrivialGenerator}
    {reply : List (List UInt8)}
    (steps : db.generateReplyGeneric fuel keep generator = some (next, reply)) :
    db.Answers fuel generator (keep :: calls) ↔
      db.IsWholeDatabase reply ∧ db.Answers fuel next calls := by
  rw [Answers, generateReplies, steps, Option.bind_some]
  constructor
  · rintro ⟨replies, runs, whole⟩
    rcases Option.map_eq_some_iff.mp runs with ⟨later, laterRuns, rfl⟩
    exact ⟨whole reply List.mem_cons_self, later, laterRuns, fun other other_mem =>
      whole other (List.mem_cons_of_mem reply other_mem)⟩
  · rintro ⟨whole, later, laterRuns, wholeLater⟩
    refine ⟨reply :: later, by rw [laterRuns, Option.map_some], ?_⟩
    intro other other_mem
    rcases List.mem_cons.mp other_mem with rfl | other_mem
    · exact whole
    · exact wholeLater other other_mem

theorem not_answers_cons {keep : Bool} {generator : TrivialGenerator}
    (fails : db.generateReplyGeneric fuel keep generator = none) :
    ¬ db.Answers fuel generator (keep :: calls) := by
  rintro ⟨replies, runs, _⟩
  rw [generateReplies, fails, Option.bind_none] at runs
  exact absurd runs (by simp)

theorem generateReplyGeneric_loaded (chunks_lt : db.totalNbChunks < 2 ^ 32)
    (enough : db.totalNbChunks < fuel) (keep : Bool) :
    db.generateReplyGeneric fuel keep db.loaded =
      some (if keep then db.loaded else db.released, db.reply) := by
  have generates := db.generateReply_eq (show db.loaded.totalNbChunks < fuel from enough) rfl
  rw [if_pos (show db.loaded.totalNbChunks < 2 ^ 32 from chunks_lt)] at generates
  rw [generateReplyGeneric, importOnce, if_neg (by simp [loaded]), Option.bind_some, generates,
    Option.bind_some]
  cases keep
  · rfl
  · rfl

/-- After the buffer has been freed, only empty replies can be kept on being asked for. -/
theorem answers_released_iff (enough : 0 < fuel) : db.Answers fuel db.released calls ↔
    calls = [] ∨ db.totalNbChunks = 0 ∧ db.IsWholeDatabase [] ∧ ∀ keep ∈ calls, keep = true := by
  induction calls with
  | nil => exact iff_of_true (db.answers_nil _) (.inl rfl)
  | cons keep calls ih =>
      have generates : db.generateReply fuel db.released =
          if db.released.totalNbChunks = 0 then some [] else none :=
        db.generateReply_eq_of_released enough rfl
      by_cases empty : db.totalNbChunks = 0
      · rw [if_pos (show db.released.totalNbChunks = 0 from empty)] at generates
        cases keep with
        | false =>
            have fails : db.generateReplyGeneric fuel false db.released = none := by
              rw [generateReplyGeneric, importOnce, if_neg (by simp [released]), Option.bind_some,
                generates, Option.bind_some]
              rfl
            simpa using db.not_answers_cons fails
        | true =>
            have steps : db.generateReplyGeneric fuel true db.released =
                some (db.released, []) := by
              rw [generateReplyGeneric, importOnce, if_neg (by simp [released]), Option.bind_some,
                generates, Option.bind_some]
              rfl
            rw [db.answers_cons_iff steps, ih]
            cases calls <;> simp [empty]
      · rw [if_neg (show db.released.totalNbChunks ≠ 0 from empty)] at generates
        have fails : db.generateReplyGeneric fuel keep db.released = none := by
          rw [generateReplyGeneric, importOnce, if_neg (by simp [released]), Option.bind_some,
            generates, Option.bind_none]
        simpa [empty] using db.not_answers_cons fails

theorem answers_loaded_iff (chunks_lt : db.totalNbChunks < 2 ^ 32)
    (enough : db.totalNbChunks < fuel) : db.Answers fuel db.loaded calls ↔
      calls = [] ∨ db.IsWholeDatabase db.reply ∧
        ((∀ keep ∈ calls.dropLast, keep = true) ∨
          db.totalNbChunks = 0 ∧ calls.count false ≤ 1) := by
  induction calls with
  | nil => exact iff_of_true (db.answers_nil _) (.inl rfl)
  | cons keep calls ih =>
      rw [db.answers_cons_iff (db.generateReplyGeneric_loaded chunks_lt enough keep)]
      cases keep with
      | true =>
          rw [if_pos rfl, ih]
          cases calls with
          | nil => simp
          | cons next calls => simp
      | false =>
          have empty_reply : db.totalNbChunks = 0 → db.reply = [] := by
            intro empty
            rw [reply, empty]
            rfl
          rw [if_neg (by simp), db.answers_released_iff (by omega)]
          cases calls with
          | nil => simp
          | cons next calls =>
              by_cases empty : db.totalNbChunks = 0
              · simp [empty, empty_reply empty, List.count_eq_zero]
              · simp [empty]

/-- The first call is a call with the data, if they can be imported. -/
theorem generateReplyGeneric_fresh (keep : Bool)
    (imports : db.importData fuel = some fun index => db.contents.getD index 0) :
    db.generateReplyGeneric fuel keep fresh = db.generateReplyGeneric fuel keep db.loaded := by
  have first : db.importOnce fuel fresh = some db.loaded := by
    rw [importOnce, if_pos (by rfl), imports]
    rfl
  have later : db.importOnce fuel db.loaded = some db.loaded := by
    rw [importOnce, if_neg (by simp [loaded])]
  rw [generateReplyGeneric, generateReplyGeneric, first, later]

theorem answers_fresh_cons_iff (keep : Bool)
    (imports : db.importData fuel = some fun index => db.contents.getD index 0) :
    db.Answers fuel fresh (keep :: calls) ↔ db.Answers fuel db.loaded (keep :: calls) := by
  rw [Answers, Answers, generateReplies, generateReplies,
    db.generateReplyGeneric_fresh keep imports]

theorem not_answers_fresh_cons (keep : Bool) (fails : db.importData fuel = none) :
    ¬ db.Answers fuel fresh (keep :: calls) := by
  apply db.not_answers_cons
  rw [generateReplyGeneric, importOnce, if_pos (by rfl), fails]
  rfl

/-- A generator whose chunks cannot be counted with 32 bits never replies. -/
theorem not_answers_loaded_cons (keep : Bool) (large : 2 ^ 32 ≤ db.totalNbChunks)
    (enough : db.totalNbChunks < fuel) : ¬ db.Answers fuel db.loaded (keep :: calls) := by
  apply db.not_answers_cons
  have generates := db.generateReply_eq (show db.loaded.totalNbChunks < fuel from enough) rfl
  rw [if_neg (show ¬ db.loaded.totalNbChunks < 2 ^ 32 from not_lt.mpr large)] at generates
  rw [generateReplyGeneric, importOnce, if_neg (by simp [loaded]), Option.bind_some, generates,
    Option.bind_none]

theorem answers_fresh_iff (nbStream_lt : db.nbStream < fuel) (size_lt : db.maxFileBytesize < fuel)
    (chunks_lt : db.totalNbChunks < fuel) :
    db.Answers fuel fresh calls ↔ calls = [] ∨ db.Returnable ∧ db.KeptInTime calls := by
  cases calls with
  | nil => exact iff_of_true (db.answers_nil _) (.inl rfl)
  | cons keep calls =>
      have import_eq := db.importData_eq nbStream_lt size_lt
      by_cases imports : db.nbStream < 2 ^ 32 ∧ db.totalNbChunks < 2 ^ 64 ∧
          db.contents.length ≤ db.capacity
      · rw [if_pos imports] at import_eq
        rw [db.answers_fresh_cons_iff keep import_eq]
        rcases lt_or_ge db.totalNbChunks (2 ^ 32) with counted | large
        · have covers := imports.2.2
          rw [db.capacity_eq counted] at covers
          rw [db.answers_loaded_iff counted chunks_lt, db.isWholeDatabase_reply_iff covers,
            KeptInTime, db.contents_eq_nil_iff covers]
          constructor
          · rintro (none | ⟨⟨sameCount, wraps⟩, kept⟩)
            · exact .inl none
            · exact .inr ⟨⟨imports.1, counted, covers,
                db.sameCount_iff.mp sameCount, wraps⟩, kept⟩
          · rintro (none | ⟨returnable, kept⟩)
            · exact .inl none
            · exact .inr ⟨⟨db.sameCount_iff.mpr returnable.unseparated,
                returnable.wraps⟩, kept⟩
        · refine iff_of_false (db.not_answers_loaded_cons keep large chunks_lt) ?_
          rintro (none | ⟨returnable, _⟩)
          · exact absurd none (by simp)
          · exact absurd returnable.totalNbChunks_lt (not_lt.mpr large)
      · rw [if_neg imports] at import_eq
        refine iff_of_false (db.not_answers_fresh_cons keep import_eq) ?_
        rintro (none | ⟨returnable, _⟩)
        · exact absurd none (by simp)
        · have counted := returnable.totalNbChunks_lt
          have covers := returnable.covers
          rw [← db.capacity_eq counted] at covers
          exact imports ⟨returnable.nbStream_lt, by omega, covers⟩

/-- What the calls do is settled by a number of rounds that is enough for every loop. -/
theorem returnsWholeDatabase_iff_answers :
    db.ReturnsWholeDatabase calls ↔
      db.Answers (db.nbStream + 1 + (db.maxFileBytesize + 1) + (db.totalNbChunks + 1)) fresh
        calls := by
  constructor
  · rintro ⟨bound, returns⟩
    have answers := returns
      (bound + (db.nbStream + 1) + (db.maxFileBytesize + 1) + (db.totalNbChunks + 1)) (by omega)
    have holds := (db.answers_fresh_iff (by omega) (by omega) (by omega)).mp answers
    exact (db.answers_fresh_iff (by omega) (by omega) (by omega)).mpr holds
  · intro answers
    have holds := (db.answers_fresh_iff (by omega) (by omega) (by omega)).mp answers
    refine ⟨db.nbStream + 1 + (db.maxFileBytesize + 1) + (db.totalNbChunks + 1), ?_⟩
    intro fuel enough
    exact (db.answers_fresh_iff (by omega) (by omega) (by omega)).mpr holds

end Calls

/--
Every call returns the whole database if and only if one call does and no call reads the
buffer after it has been freed.
-/
theorem returnsWholeDatabase_iff (calls : List Bool) :
    db.ReturnsWholeDatabase calls ↔ calls = [] ∨ db.Returnable ∧ db.KeptInTime calls := by
  rw [returnsWholeDatabase_iff_answers]
  exact db.answers_fresh_iff (by omega) (by omega) (by omega)

/-- One file with one byte. -/
def oneByte : TrivialDatabase where
  streams := [⟨[7], fun position => 1 - position, fun _ => Nat.sub_pos_of_lt, fun _ => le_rfl⟩]
  maxFileBytesize := 1
  absorptionBitsize := 8192
  length_le := by simp
  absorptionBitsize_lt := by decide
  eight_le := by decide

/-- The second call with the default argument reads the buffer that the first one freed. -/
theorem not_returnsWholeDatabase_twice : ¬ oneByte.ReturnsWholeDatabase [false, false] := by
  rw [returnsWholeDatabase_iff_answers,
    oneByte.answers_fresh_iff (by omega) (by omega) (by omega)]
  rintro (none | ⟨_, kept⟩)
  · exact absurd none (by simp)
  · simp [KeptInTime, contents, oneByte] at kept

end TrivialDatabase

end Xpir
