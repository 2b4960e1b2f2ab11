import Mathlib.Data.Int.ModEq
import Mathlib.Data.List.GetD
import Mathlib.Tactic.Linarith
import Mathlib.Tactic.Ring
import Xpir.Foundations.Loop

/-!
# Aggregated streams

The elements of the database are groups of `alpha` consecutive streams: group
`streamNb` puts the same stretch of its streams side by side into a buffer that is
reused from one group to the next. This file models `readAggregatedStream` for the
two database handlers.

The last group may be incomplete. The slots of its missing streams have to be
zeroed, but the zeroing starts one slot too early: it erases the last stream, and
leaves what was in the last slot. The theorem `readAggregatedStream_iff` says when
the group is nevertheless right.
-/

namespace Xpir

section Memory

/-- The buffer after a stretch of it has been overwritten. -/
def fillBytes (buf : ℕ → UInt8) (offset count : ℕ) (source : ℕ → UInt8) : ℕ → UInt8 := fun index =>
  if offset ≤ index ∧ index < offset + count then source (index - offset) else buf index

def bzero (buf : ℕ → UInt8) (offset count : ℕ) : ℕ → UInt8 :=
  fillBytes buf offset count (fun _ => 0)

/-- A stretch of whole slots contains the bytes of these slots. -/
theorem slot_mem_iff (first count slot : ℕ) {size byte : ℕ} (byte_lt : byte < size) :
    first * size ≤ slot * size + byte ∧ slot * size + byte < first * size + size * count ↔
      first ≤ slot ∧ slot < first + count := by
  have quotient : (slot * size + byte) / size = slot := by
    rw [mul_comm, Nat.mul_add_div (Nat.zero_lt_of_lt byte_lt), Nat.div_eq_of_lt byte_lt, add_zero]
  have below := Nat.le_div_iff_mul_le (Nat.zero_lt_of_lt byte_lt) (x := first)
    (y := slot * size + byte)
  have above := Nat.div_lt_iff_lt_mul (Nat.zero_lt_of_lt byte_lt) (x := slot * size + byte)
    (y := first + count)
  rw [quotient] at below above
  rw [below, above, Nat.add_mul, mul_comm count]

end Memory

section Files

/--
A file opened for reading. At each position `readsome` has a number of characters
available, which may be smaller than what is left, but is not zero before the end.
-/
structure FileStream where
  bytes : List UInt8
  available : ℕ → ℕ
  available_pos : ∀ position < bytes.length, 0 < available position
  available_le : ∀ position, available position ≤ bytes.length - position

def FileStream.byteAt (file : FileStream) (position : ℕ) : UInt8 :=
  file.bytes.getD position 0

/-- The variables of the loop that reads a stream. -/
structure ReadState where
  buf : ℕ → UInt8
  sizeRead : ℕ
  position : ℕ

def readRound (file : FileStream) (offset size : ℕ) (state : ReadState) : ReadState :=
  let readThisrun := min (size - state.sizeRead) (file.available state.position)
  let buf := fillBytes state.buf (offset + state.sizeRead) readThisrun
    (fun byte => file.byteAt (state.position + byte))
  let sizeRead := state.sizeRead + readThisrun
  if readThisrun = 0 ∧ sizeRead < size then
    { buf := bzero buf (offset + sizeRead) (size - sizeRead)
      sizeRead := size
      position := state.position }
  else { buf := buf, sizeRead := sizeRead, position := state.position + readThisrun }

/-- Read `size` bytes of a stream that is at the given position, padded with zeros. -/
def readStream (fuel : ℕ) (file : FileStream) (position : ℕ) (buf : ℕ → UInt8)
    (offset size : ℕ) : Option (ℕ → UInt8) :=
  (whileLoop (fun state => state.sizeRead < size)
    (fun state => some (readRound file offset size state)) fuel
    { buf := buf, sizeRead := 0, position := position }).map ReadState.buf

theorem FileStream.byteAt_eq_zero {file : FileStream} {position : ℕ}
    (ended : file.available position = 0) (later : ℕ) : file.byteAt (position + later) = 0 := by
  apply List.getD_eq_default
  by_contra inside
  have pos := file.available_pos position (by omega)
  omega

/-- The invariant of `readStream`: the first bytes are those of the file. -/
structure ReadInvariant (file : FileStream) (start : ℕ) (buf : ℕ → UInt8) (offset size : ℕ)
    (state : ReadState) : Prop where
  sizeRead_le : state.sizeRead ≤ size
  position : state.sizeRead < size → state.position = start + state.sizeRead
  bytes : ∀ index, state.buf index =
    if offset ≤ index ∧ index < offset + state.sizeRead then file.byteAt (start + (index - offset))
    else buf index

theorem ReadInvariant.step {file : FileStream} {start offset size : ℕ} {buf : ℕ → UInt8}
    {state : ReadState} (holds : ReadInvariant file start buf offset size state)
    (continues : state.sizeRead < size) :
    ReadInvariant file start buf offset size (readRound file offset size state) ∧
      state.sizeRead < (readRound file offset size state).sizeRead := by
  have position := holds.position continues
  rw [readRound]
  split
  next ended =>
    have none : file.available (start + state.sizeRead) = 0 := by
      rw [← position]
      omega
    refine ⟨⟨le_rfl, ?_, ?_⟩, continues⟩
    · intro unfinished
      exact absurd unfinished (Nat.lt_irrefl _)
    · intro index
      have bytes := holds.bytes index
      simp only [ended.1, bzero, fillBytes, add_zero]
      by_cases padded : offset + state.sizeRead ≤ index ∧
          index < offset + state.sizeRead + (size - state.sizeRead)
      · have zero := FileStream.byteAt_eq_zero none (index - offset - state.sizeRead)
        rw [if_pos padded, if_pos (by omega), ← zero]
        congr 1
        omega
      · rw [if_neg padded, if_neg (by omega), bytes]
        apply if_congr _ rfl rfl
        omega
  next more =>
    refine ⟨⟨?_, ?_, ?_⟩, ?_⟩
    · change state.sizeRead + min _ _ ≤ size
      omega
    · intro _
      change state.position + min _ _ = start + (state.sizeRead + min _ _)
      omega
    · intro index
      have bytes := holds.bytes index
      simp only [fillBytes]
      generalize min (size - state.sizeRead) (file.available state.position) = count
      by_cases inside : offset + state.sizeRead ≤ index ∧ index < offset + state.sizeRead + count
      · rw [if_pos inside, if_pos (by omega), position]
        congr 1
        omega
      · rw [if_neg inside, bytes]
        apply if_congr _ rfl rfl
        omega
    · change state.sizeRead < state.sizeRead + min _ _
      omega

/-- Reading a stream ends, with its bytes in the buffer, followed by zeros. -/
theorem readStream_eq (file : FileStream) (start : ℕ) (buf : ℕ → UInt8) (offset size : ℕ)
    {fuel : ℕ} (enough : size < fuel) :
    ∃ read, readStream fuel file start buf offset size = some read ∧
      ∀ index, read index =
        if offset ≤ index ∧ index < offset + size then file.byteAt (start + (index - offset))
        else buf index := by
  rcases whileLoop_total (fun state : ReadState => state.sizeRead < size)
    (fun state => some (readRound file offset size state))
    (ReadInvariant file start buf offset size) (fun state => size - state.sizeRead)
    (by
      intro state holds continues
      have unfinished : state.sizeRead < size := of_decide_eq_true continues
      rcases holds.step unfinished with ⟨nextHolds, later⟩
      exact ⟨_, rfl, nextHolds, by omega⟩)
    fuel ⟨buf, 0, start⟩ ⟨Nat.zero_le _, fun _ => rfl, fun index => by
      simp only [add_zero]
      rw [if_neg (by omega)]⟩ (by omega)
    with ⟨final, runs, holds, stops⟩
  have finished : final.sizeRead = size :=
    le_antisymm holds.sizeRead_le (not_lt.mp (of_decide_eq_false stops))
  refine ⟨final.buf, ?_, ?_⟩
  · rw [readStream, runs]
    rfl
  · intro index
    rw [holds.bytes index, finished]

end Files

/-- The group of streams to be aggregated, in a database of the given size. -/
structure StreamGroup where
  nbStream : ℕ
  maxFileBytesize : ℕ
  alpha : ℕ
  streamNb : ℕ
  offset : ℕ
  bytesPerFile : ℕ
  alpha_pos : 0 < alpha
  inside : streamNb * alpha < nbStream
  offset_lt : offset < maxFileBytesize
  bytes_pos : 0 < bytesPerFile
  /-- The streams are the entries of a vector of strings. -/
  nbStream_lt : nbStream < 2 ^ 63

namespace StreamGroup

variable (group : StreamGroup)

def fileByteSize : ℕ := min group.bytesPerFile (group.maxFileBytesize - group.offset)

def startStream : ℕ := group.streamNb * group.alpha

def endStream : ℕ := min (group.streamNb * group.alpha + group.alpha - 1) (group.nbStream - 1)

def paddingStreams : ℕ :=
  if group.nbStream ≤ group.streamNb * group.alpha + group.alpha then
    group.streamNb * group.alpha + group.alpha - group.nbStream
  else 0

/-- The zeroing of the missing streams, the same in both handlers. -/
def zeroPadding (paddingStreams : ℕ) (rawBits : ℕ → UInt8) : ℕ → UInt8 :=
  if paddingStreams ≠ 0 then
    bzero rawBits (group.endStream % group.alpha * group.fileByteSize)
      (group.fileByteSize * paddingStreams)
  else rawBits

/-- The slots hold the streams of the group, or zeros where there is no stream. -/
def Aggregates (streamByte : ℕ → ℕ → UInt8) (rawBits : ℕ → UInt8) : Prop :=
  ∀ slot < group.alpha, ∀ byte < group.fileByteSize,
    rawBits (slot * group.fileByteSize + byte) =
      if group.startStream + slot < group.nbStream then
        streamByte (group.startStream + slot) (group.offset + byte)
      else 0

/-- No stream of the group is missing. -/
def Full : Prop := group.startStream + group.alpha ≤ group.nbStream

/-- The slot erased is zero anyway, and so is the slot that is not. -/
def Harmless (streamByte : ℕ → ℕ → UInt8) (rawBits : ℕ → UInt8) : Prop :=
  (∀ byte < group.fileByteSize, streamByte (group.nbStream - 1) (group.offset + byte) = 0) ∧
    ∀ byte < group.fileByteSize, rawBits ((group.alpha - 1) * group.fileByteSize + byte) = 0

theorem fileByteSize_pos : 0 < group.fileByteSize := by
  have offset_lt := group.offset_lt
  have bytes_pos := group.bytes_pos
  rw [fileByteSize]
  omega

theorem zeroPadding_zero (paddingStreams index : ℕ) :
    group.zeroPadding paddingStreams (fun _ => 0) index = 0 := by
  rw [zeroPadding]
  split
  next =>
    rw [bzero, fillBytes]
    split <;> rfl
  next => rfl

/-- In an incomplete group, the zeroing starts with the slot of the last stream. -/
theorem endStream_mod (missing : ¬ group.Full) :
    group.endStream % group.alpha = group.nbStream - 1 - group.startStream := by
  have inside := group.inside
  rw [Full, startStream] at missing
  have last : group.endStream = group.nbStream - 1 - group.startStream +
      group.alpha * group.streamNb := by
    rw [endStream, startStream, mul_comm group.alpha]
    omega
  rw [last, Nat.add_mul_mod_self_left, startStream]
  exact Nat.mod_eq_of_lt (by omega)

/-- What the zeroing leaves of slots that hold the streams of the group. -/
theorem zeroPadding_apply {rawBits : ℕ → UInt8} (missing : ¬ group.Full) {slot byte : ℕ}
    (byte_lt : byte < group.fileByteSize) :
    group.zeroPadding group.paddingStreams rawBits (slot * group.fileByteSize + byte) =
      if group.nbStream - 1 - group.startStream ≤ slot ∧ slot < group.alpha - 1 then 0
      else rawBits (slot * group.fileByteSize + byte) := by
  have inside := group.inside
  have start := group.endStream_mod missing
  rw [Full, startStream] at missing
  have padding : group.paddingStreams = group.startStream + group.alpha - group.nbStream := by
    rw [paddingStreams, if_pos (by omega), startStream]
  rw [zeroPadding, if_pos (by rw [padding, startStream]; omega), bzero, fillBytes, start]
  simp only [slot_mem_iff _ _ slot byte_lt]
  rw [padding, startStream]
  apply if_congr _ rfl rfl
  omega

/--
With the streams of the group in their slots and the other slots untouched, the
zeroing gives the right group only if nothing is missing, or what goes wrong does
not show.
-/
theorem aggregates_zeroPadding_iff {streamByte : ℕ → ℕ → UInt8} (rawBits : ℕ → UInt8)
    {filled : ℕ → UInt8}
    (slots : ∀ slot < group.alpha, ∀ byte < group.fileByteSize,
      filled (slot * group.fileByteSize + byte) =
        if group.startStream + slot ≤ group.endStream then
          streamByte (group.startStream + slot) (group.offset + byte)
        else rawBits (slot * group.fileByteSize + byte)) :
    group.Aggregates streamByte (group.zeroPadding group.paddingStreams filled) ↔
      group.Full ∨ group.Harmless streamByte rawBits := by
  have inside := group.inside
  have alpha_pos := group.alpha_pos
  by_cases full : group.Full
  · refine iff_of_true ?_ (Or.inl full)
    rw [Full, startStream] at full
    have none : group.paddingStreams = 0 := by
      rw [paddingStreams]
      split <;> omega
    intro slot slot_lt byte byte_lt
    rw [zeroPadding, if_neg (not_not.mpr none), slots slot slot_lt byte byte_lt, startStream,
      endStream, if_pos (by omega), if_pos (by omega)]
  · have missing := full
    have apply_eq : ∀ slot, ∀ byte < group.fileByteSize,
        group.zeroPadding group.paddingStreams filled (slot * group.fileByteSize + byte) =
          if group.nbStream - 1 - group.startStream ≤ slot ∧ slot < group.alpha - 1 then 0
          else filled (slot * group.fileByteSize + byte) :=
      fun _ _ byte_lt => group.zeroPadding_apply full byte_lt
    rw [Full, startStream] at missing
    have last : group.endStream = group.nbStream - 1 := by
      rw [endStream]
      omega
    rw [last] at slots
    constructor
    · intro aggregates
      right
      constructor
      · intro byte byte_lt
        have value := aggregates (group.nbStream - 1 - group.startStream)
          (by rw [startStream]; omega) byte byte_lt
        have stream : group.startStream + (group.nbStream - 1 - group.startStream) =
            group.nbStream - 1 := by
          rw [startStream]
          omega
        rw [apply_eq _ _ byte_lt, if_pos (by rw [startStream]; omega), stream,
          if_pos (by omega)] at value
        exact value.symm
      · intro byte byte_lt
        have value := aggregates (group.alpha - 1) (by omega) byte byte_lt
        rw [apply_eq _ _ byte_lt, if_neg (by omega), slots _ (by omega) byte byte_lt,
          if_neg (by rw [startStream]; omega), if_neg (by rw [startStream]; omega)] at value
        exact value
    · rintro (impossible | ⟨erased, stale⟩)
      · exact absurd impossible full
      · intro slot slot_lt byte byte_lt
        rw [apply_eq _ _ byte_lt, slots slot slot_lt byte byte_lt]
        rcases lt_trichotomy (group.startStream + slot) (group.nbStream - 1) with
          before | at_last | after
        · rw [if_neg (by omega), if_pos (by omega), if_pos (by omega)]
        · rw [if_pos (by rw [startStream] at *; omega), if_pos (by omega), at_last,
            erased byte byte_lt]
        · rw [if_neg (by omega : ¬ group.startStream + slot < group.nbStream)]
          split
          next => rfl
          next kept =>
            have final : slot = group.alpha - 1 := by omega
            rw [if_neg (by omega), final, stale byte byte_lt]

end StreamGroup

/-! ## Files of a directory -/

/-- The variables of the loop over the streams of a group, where `i` is an `int`. -/
structure AggregateState where
  rawBits : ℕ → UInt8
  i : ℤ

/-- The files of the database: one for each stream, or a single one to be split. -/
structure DBDirectoryProcessor where
  filesSplitting : Bool
  files : ℕ → FileStream
  realFile : FileStream

namespace DBDirectoryProcessor

variable (db : DBDirectoryProcessor) (group : StreamGroup)

/-- The file to be read for a stream, and the position to start from. -/
def openStream (streamNb requestedOffset : ℕ) : FileStream × ℕ :=
  if !db.filesSplitting then (db.files streamNb, requestedOffset)
  else (db.realFile, streamNb * group.maxFileBytesize + requestedOffset)

/-- A stream is a file, or a part of the single file. -/
def streamByte (streamNb position : ℕ) : UInt8 :=
  if db.filesSplitting then
    db.realFile.byteAt (streamNb * group.maxFileBytesize + position)
  else (db.files streamNb).byteAt position

/-- Read one stream into its slot; the increment of `i` must not overflow. -/
def readSlot (fuel : ℕ) (state : AggregateState) : Option AggregateState :=
  let stream := db.openStream group state.i.toNat group.offset
  (readStream fuel stream.1 stream.2 state.rawBits
    (state.i.toNat % group.alpha * group.fileByteSize) group.fileByteSize).bind
      (fun rawBits => if state.i = 2 ^ 31 - 1 then none else some ⟨rawBits, state.i + 1⟩)

/-- The comparison of `i` with the last stream is one of `uint64_t` values. -/
def readAggregatedStream (fuel : ℕ) (rawBits : ℕ → UInt8) : Option (ℕ → UInt8) :=
  (whileLoop (fun state : AggregateState => state.i % 2 ^ 64 ≤ (group.endStream : ℤ))
    (db.readSlot group fuel) fuel
    { rawBits := rawBits, i := Int.bmod group.startStream (2 ^ 32) }).map
      (fun state => group.zeroPadding group.paddingStreams state.rawBits)

/-- The group is read, and it is the right one. -/
def ReadsGroup (rawBits : ℕ → UInt8) : Prop :=
  ∃ fuel read, db.readAggregatedStream group fuel rawBits = some read ∧
    group.Aggregates (db.streamByte group) read

variable {db group} {rawBits : ℕ → UInt8}

theorem openStream_byteAt (streamNb position byte : ℕ) :
    (db.openStream group streamNb position).1.byteAt
        ((db.openStream group streamNb position).2 + byte) =
      db.streamByte group streamNb (position + byte) := by
  rw [openStream, streamByte]
  cases db.filesSplitting <;> simp [Nat.add_assoc]

/-- The invariant of the loop over the streams: all slots before the current one are read. -/
structure SlotsRead (db : DBDirectoryProcessor) (group : StreamGroup) (rawBits : ℕ → UInt8)
    (current : ℕ) (state : AggregateState) : Prop where
  i_eq : state.i = current
  first : group.startStream ≤ current
  last : current ≤ group.endStream + 1
  slots : ∀ slot < group.alpha, ∀ byte < group.fileByteSize,
    state.rawBits (slot * group.fileByteSize + byte) =
      if group.startStream + slot < current then
        db.streamByte group (group.startStream + slot) (group.offset + byte)
      else rawBits (slot * group.fileByteSize + byte)

theorem SlotsRead.readSlot (fuel : ℕ) {current : ℕ} {state : AggregateState}
    (fits : group.endStream + 1 < 2 ^ 31) (enough : group.fileByteSize < fuel)
    (holds : SlotsRead db group rawBits current state) (continues : current ≤ group.endStream) :
    ∃ next, db.readSlot group fuel state = some next ∧
      SlotsRead db group rawBits (current + 1) next := by
  have first := holds.first
  have end_le : group.endStream ≤ group.startStream + group.alpha - 1 := Nat.min_le_left _ _
  have slot_eq : current % group.alpha = current - group.startStream := by
    have split_current : current = current - group.startStream + group.streamNb * group.alpha := by
      rw [StreamGroup.startStream] at *
      omega
    rw [split_current, Nat.add_mul_mod_self_right, StreamGroup.startStream, Nat.add_sub_cancel]
    apply Nat.mod_eq_of_lt
    rw [StreamGroup.startStream] at *
    have alpha_pos := group.alpha_pos
    omega
  rcases readStream_eq (db.openStream group current group.offset).1
    (db.openStream group current group.offset).2 state.rawBits
    (current % group.alpha * group.fileByteSize) group.fileByteSize enough with ⟨read, runs, bytes⟩
  refine ⟨⟨read, state.i + 1⟩, ?_, ?_, ?_, ?_, ?_⟩
  · have bounded : state.i ≠ 2 ^ 31 - 1 := by
      rw [holds.i_eq]
      omega
    rw [DBDirectoryProcessor.readSlot, holds.i_eq, Int.toNat_natCast, runs, Option.bind_some,
      if_neg (by rwa [holds.i_eq] at bounded)]
  · change state.i + 1 = ((current + 1 : ℕ) : ℤ)
    rw [holds.i_eq]
    rfl
  · omega
  · omega
  · intro slot slot_lt byte byte_lt
    have stretch := slot_mem_iff (current % group.alpha) 1 slot byte_lt
    rw [Nat.mul_one] at stretch
    change read _ = _
    rw [bytes, holds.slots slot slot_lt byte byte_lt]
    simp only [stretch]
    by_cases owned : group.startStream + slot = current
    · have same : slot = current % group.alpha := by omega
      rw [if_pos (by omega), if_pos (by omega), same, Nat.add_sub_cancel_left,
        openStream_byteAt, ← same, owned]
    · rw [if_neg (by omega)]
      apply if_congr _ rfl rfl
      omega

theorem initial_i (group : StreamGroup) (fits : group.startStream < 2 ^ 31) :
    Int.bmod group.startStream (2 ^ 32) = group.startStream := by
  apply Int.bmod_eq_of_le <;> omega

/-- Reading a group of streams numbered by an `int` ends, with the streams in their slots. -/
theorem readAggregatedStream_eq (db : DBDirectoryProcessor) (rawBits : ℕ → UInt8) (fuel : ℕ)
    (fits : group.endStream + 1 < 2 ^ 31)
    (enough : group.fileByteSize + group.endStream + 2 < fuel) :
    ∃ filled, db.readAggregatedStream group fuel rawBits =
        some (group.zeroPadding group.paddingStreams filled) ∧
      ∀ slot < group.alpha, ∀ byte < group.fileByteSize,
        filled (slot * group.fileByteSize + byte) =
          if group.startStream + slot ≤ group.endStream then
            db.streamByte group (group.startStream + slot) (group.offset + byte)
          else rawBits (slot * group.fileByteSize + byte) := by
  have inside := group.inside
  have alpha_pos := group.alpha_pos
  have start_le : group.startStream ≤ group.endStream := by
    rw [StreamGroup.startStream, StreamGroup.endStream]
    omega
  have initial : ∃ current, SlotsRead db group rawBits current
      ⟨rawBits, Int.bmod group.startStream (2 ^ 32)⟩ := by
    refine ⟨group.startStream, ?_, le_rfl, by omega, ?_⟩
    · dsimp only
      exact initial_i group (by omega)
    · intro slot _ byte _
      rw [if_neg (by omega)]
  rcases whileLoop_total
    (fun state : AggregateState => state.i % 2 ^ 64 ≤ (group.endStream : ℤ))
    (db.readSlot group fuel)
    (fun state => ∃ current, SlotsRead db group rawBits current state)
    (fun state => group.endStream + 1 - state.i.toNat)
    (by
      rintro state ⟨current, holds⟩ continues
      have last := holds.last
      have unfinished : current ≤ group.endStream := by
        have compared := of_decide_eq_true continues
        rw [holds.i_eq] at compared
        omega
      rcases holds.readSlot fuel fits (by omega) unfinished with ⟨next, reads, nextHolds⟩
      refine ⟨next, reads, ⟨_, nextHolds⟩, ?_⟩
      rw [holds.i_eq, nextHolds.i_eq]
      omega)
    fuel ⟨rawBits, Int.bmod group.startStream (2 ^ 32)⟩ initial (by omega) with ⟨final, runs, ⟨current, holds⟩, stops⟩
  have last := holds.last
  have finished : current = group.endStream + 1 := by
    have compared := of_decide_eq_false stops
    rw [holds.i_eq] at compared
    omega
  refine ⟨final.rawBits, ?_, ?_⟩
  · rw [readAggregatedStream, runs]
    rfl
  · intro slot slot_lt byte byte_lt
    rw [holds.slots slot slot_lt byte byte_lt, finished]
    apply if_congr _ rfl rfl
    omega

theorem readStream_mono {fuel more : ℕ} (fuel_le : fuel ≤ more) {file : FileStream}
    {position offset size : ℕ} {buf read : ℕ → UInt8}
    (returns : readStream fuel file position buf offset size = some read) :
    readStream more file position buf offset size = some read := by
  rcases Option.map_eq_some_iff.mp returns with ⟨final, runs, buf_eq⟩
  exact Option.map_eq_some_iff.mpr
    ⟨final, whileLoop_mono (fun _ _ steps => steps) fuel_le runs, buf_eq⟩

theorem readAggregatedStream_mono {fuel more : ℕ} (fuel_le : fuel ≤ more) {read : ℕ → UInt8}
    (returns : db.readAggregatedStream group fuel rawBits = some read) :
    db.readAggregatedStream group more rawBits = some read := by
  rcases Option.map_eq_some_iff.mp returns with ⟨final, runs, read_eq⟩
  apply Option.map_eq_some_iff.mpr
  refine ⟨final, whileLoop_mono ?_ fuel_le runs, read_eq⟩
  intro state next steps
  rcases Option.bind_eq_some_iff.mp steps with ⟨filled, reads, advances⟩
  exact Option.bind_eq_some_iff.mpr ⟨filled, readStream_mono fuel_le reads, advances⟩

theorem readsGroup_iff (fits : group.endStream + 1 < 2 ^ 31) :
    db.ReadsGroup group rawBits ↔
      group.Full ∨ group.Harmless (db.streamByte group) rawBits := by
  constructor
  · rintro ⟨fuel, read, returns, aggregates⟩
    rcases readAggregatedStream_eq db rawBits (fuel + group.fileByteSize + group.endStream + 3)
      fits (by omega) with ⟨filled, runs, slots⟩
    rw [readAggregatedStream_mono (by omega) returns] at runs
    rw [Option.some.inj runs] at aggregates
    exact (group.aggregates_zeroPadding_iff rawBits slots).mp aggregates
  · intro condition
    rcases readAggregatedStream_eq db rawBits (group.fileByteSize + group.endStream + 3)
      fits (by omega) with ⟨filled, runs, slots⟩
    exact ⟨_, _, runs, (group.aggregates_zeroPadding_iff rawBits slots).mpr condition⟩

/-- A file that is available as a whole. -/
def wholeFile (bytes : List UInt8) : FileStream where
  bytes := bytes
  available := fun position => bytes.length - position
  available_pos := fun _ inside => Nat.sub_pos_of_lt inside
  available_le := fun _ => le_rfl

/-- Every stream is filled with ones. -/
def allOnes (group : StreamGroup) : DBDirectoryProcessor where
  filesSplitting := false
  files := fun _ => wholeFile (List.replicate group.maxFileBytesize 1)
  realFile := wholeFile []

theorem streamByte_allOnes {position : ℕ} (position_lt : position < group.maxFileBytesize)
    (streamNb : ℕ) : (allOnes group).streamByte group streamNb position = 1 := by
  change (List.replicate group.maxFileBytesize (1 : UInt8)).getD position 0 = 1
  rw [List.getD_eq_getElem _ _ (by rwa [List.length_replicate]), List.getElem_replicate]

/-- If the number of the last stream is not below that of the largest `int`, ones are not read. -/
theorem not_readsGroup_allOnes (exceeds : 2 ^ 31 ≤ group.endStream + 1) :
    ¬ (allOnes group).ReadsGroup group (fun _ => 0) := by
  rintro ⟨fuel, read, returns, aggregates⟩
  have nbStream_lt := group.nbStream_lt
  have end_le : group.endStream ≤ group.nbStream - 1 := Nat.min_le_right _ _
  rcases Option.map_eq_some_iff.mp returns with ⟨final, runs, read_eq⟩
  rcases Int.lt_or_le (Int.bmod group.startStream (2 ^ 32)) 0 with negative | nonnegative
  · -- A negative `i` is a large `uint64_t`, so that no stream is read at all.
    have lower : -2 ^ 31 ≤ Int.bmod group.startStream (2 ^ 32) := by
      have bound := Int.le_bmod (x := group.startStream) (m := 2 ^ 32) (by decide)
      omega
    have unread := whileLoop_invariant (fun state : AggregateState =>
      state.rawBits = (fun _ => 0) ∧ state.i = Int.bmod group.startStream (2 ^ 32))
      (by
        rintro state next ⟨_, i_eq⟩ continues
        have compared := of_decide_eq_true continues
        rw [i_eq] at compared
        omega)
      (by
        dsimp only
        exact ⟨rfl, rfl⟩) runs
    have value := aggregates 0 group.alpha_pos 0 group.fileByteSize_pos
    rw [← read_eq, unread.1, group.zeroPadding_zero, add_zero, add_zero,
      if_pos (show group.startStream < group.nbStream from group.inside),
      streamByte_allOnes group.offset_lt] at value
    exact absurd value (by decide)
  · -- Otherwise `i` runs through the streams until it overflows.
    rw [whileLoop_eq_none (fun state : AggregateState => 0 ≤ state.i ∧ state.i < 2 ^ 31)] at runs
    · exact absurd runs (by simp)
    · rintro state ⟨i_ge, i_lt⟩
      apply decide_eq_true
      omega
    · rintro state next ⟨i_ge, i_lt⟩ steps
      rcases Option.bind_eq_some_iff.mp steps with ⟨filled, reads, advances⟩
      split at advances
      next => exact absurd advances (by simp)
      next bounded =>
        rw [← Option.some.inj advances]
        dsimp only
        omega
    · have bound := Int.bmod_lt (x := group.startStream) (m := 2 ^ 32) (by decide)
      dsimp only
      exact ⟨nonnegative, by omega⟩

end DBDirectoryProcessor

/-! ## Generated streams -/

namespace DBGenerator

variable (group : StreamGroup)

/-- The difference is one of `long long` values. -/
def paddingStreams : ℕ :=
  (max (((group.streamNb * group.alpha + group.alpha : ℕ) : ℤ) - (group.nbStream : ℤ)) 0).toNat

/-- All bytes of all streams are the same. -/
def streamByte (_streamNb _position : ℕ) : UInt8 := 0xaa

def readAggregatedStream (rawBits : ℕ → UInt8) : ℕ → UInt8 :=
  let filled := fillBytes rawBits 0
    (group.fileByteSize * (group.endStream - group.startStream + 1)) (fun _ => 0xaa)
  group.zeroPadding (paddingStreams group) filled

variable {group}

theorem paddingStreams_eq : paddingStreams group = group.paddingStreams := by
  rw [paddingStreams, StreamGroup.paddingStreams]
  split <;> omega

theorem aggregates_iff (rawBits : ℕ → UInt8) :
    group.Aggregates streamByte (readAggregatedStream group rawBits) ↔ group.Full := by
  have inside := group.inside
  have alpha_pos := group.alpha_pos
  have start_le : group.startStream ≤ group.endStream := by
    rw [StreamGroup.startStream, StreamGroup.endStream]
    omega
  rw [readAggregatedStream, paddingStreams_eq, group.aggregates_zeroPadding_iff rawBits]
  · constructor
    · rintro (full | ⟨erased, _⟩)
      · exact full
      · exact absurd (show (0xaa : UInt8) = 0 from erased 0 group.fileByteSize_pos) (by decide)
    · exact Or.inl
  · intro slot slot_lt byte byte_lt
    have stretch := slot_mem_iff 0 (group.endStream - group.startStream + 1) slot byte_lt
    rw [zero_mul] at stretch
    rw [fillBytes]
    simp only [stretch]
    apply if_congr _ rfl rfl
    omega

end DBGenerator

/--
The handlers aggregate exactly the full groups, and the directory handler also the
groups in which neither the erased slot nor the forgotten one matters. The streams
of a directory are numbered by an `int`: beyond its range they are not read.
-/
theorem readAggregatedStream_iff (group : StreamGroup) (db : DBDirectoryProcessor)
    (rawBits : ℕ → UInt8) :
    (group.endStream + 1 < 2 ^ 31 →
      (db.ReadsGroup group rawBits ↔
        group.Full ∨ group.Harmless (db.streamByte group) rawBits)) ∧
    (2 ^ 31 ≤ group.endStream + 1 →
      ∃ (other : DBDirectoryProcessor) (stale : ℕ → UInt8), ¬ other.ReadsGroup group stale) ∧
    (group.Aggregates DBGenerator.streamByte (DBGenerator.readAggregatedStream group rawBits) ↔
      group.Full) := by
  refine ⟨DBDirectoryProcessor.readsGroup_iff, ?_, DBGenerator.aggregates_iff rawBits⟩
  intro exceeds
  exact ⟨_, _, DBDirectoryProcessor.not_readsGroup_allOnes exceeds⟩

/-- A group of two of three streams of one byte. -/
def groupOfThree (streamNb : Fin 2) : StreamGroup where
  nbStream := 3
  maxFileBytesize := 1
  alpha := 2
  streamNb := streamNb
  offset := 0
  bytesPerFile := 1
  alpha_pos := by decide
  inside := by omega
  offset_lt := by decide
  bytes_pos := by decide
  nbStream_lt := by decide

/-- The first two of three streams are read as they are. -/
theorem readAggregatedStream_iff_first :
    (DBDirectoryProcessor.allOnes (groupOfThree 0)).ReadsGroup (groupOfThree 0) (fun _ => 7) := by
  apply ((readAggregatedStream_iff (groupOfThree 0)
    (DBDirectoryProcessor.allOnes (groupOfThree 0)) (fun _ => 7)).1 (by decide)).mpr
  left
  rw [StreamGroup.Full]
  decide

/-- The third one is erased, by both handlers. -/
theorem not_readsGroup_last :
    ¬ (DBDirectoryProcessor.allOnes (groupOfThree 1)).ReadsGroup (groupOfThree 1) (fun _ => 0) ∧
      ¬ (groupOfThree 1).Aggregates DBGenerator.streamByte
        (DBGenerator.readAggregatedStream (groupOfThree 1) (fun _ => 0)) := by
  have missing : ¬ (groupOfThree 1).Full := by
    rw [StreamGroup.Full]
    decide
  constructor
  · rw [DBDirectoryProcessor.readsGroup_iff (by decide)]
    rintro (full | ⟨erased, _⟩)
    · exact missing full
    · have value := erased 0 (by decide)
      rw [DBDirectoryProcessor.streamByte_allOnes (by decide)] at value
      exact absurd value (by decide)
  · rw [DBGenerator.aggregates_iff]
    exact missing

end Xpir
