import Xpir.Foundations.BitString
import Xpir.Foundations.Loop
import Xpir.NFLlib.Arithmetic

/-!
# Splitting buffers into subchunks

This file models the part of the data import that reads the buffers. The bits of
all buffers form one string, which is cut into chunks of `bitsPerChunk` bits, and
every chunk into subchunks of 56 bits followed by a smaller one. A 64-bit window
moves over the current buffer at byte offsets. While more than 128 bits are left,
it moves by all the bytes it has used up. After that, it moves byte by byte until
the next subchunk fits into it. A subchunk that straddles two buffers is read in
two parts.

The main result is `splitBuffers_eq`: the loops end, and every subchunk is the
slice of the bit string at its position, whatever lies outside the buffers.

The number of chunks of a buffer and the bits remaining in it are computed in
floating point by the source; they are exact integers here.
-/

namespace Xpir

/-- The buffers and the chunks they are split into. -/
structure SplitShape where
  nbrOfBuffers : ℕ
  bytesPerBuffer : ℕ
  bitsPerChunk : ℕ
  chunk_pos : 0 < bitsPerChunk
  /-- Several buffers are ciphertexts, which take at least two words. -/
  wide : nbrOfBuffers = 1 ∨ 16 ≤ bytesPerBuffer
  /-- The size of a buffer is given by a `uint64_t` number of bits. -/
  bits_lt : 8 * bytesPerBuffer < 2 ^ 64

/-- The variables that `bs_loop` passes from one buffer to the next. -/
structure SplitState where
  splitData : ℕ → ℕ
  tmpdata : ℕ
  bitsread : ℕ
  subchunkIndex : ℕ

/-- The variables of the loop over the subchunks of one buffer. -/
structure WindowState extends SplitState where
  i : ℕ
  pointer64 : ℕ
  bitstoread : ℕ

namespace SplitShape

variable (shape : SplitShape)

def bitsPerBuffer : ℕ := 8 * shape.bytesPerBuffer

/-- `ceil((double) bitsPerChunk / 56)`. -/
def intUint64PerChunk : ℕ := subchunkCount 56 shape.bitsPerChunk

def subchunkSizes (index : ℕ) : ℕ := subchunkSize 56 shape.bitsPerChunk index

def subchunkMasks (index : ℕ) : ℕ := 2 ^ shape.subchunkSizes index - 1

def nextSubchunk (subchunkIndex : ℕ) : ℕ :=
  if subchunkIndex + 1 = shape.intUint64PerChunk then 0 else subchunkIndex + 1

/--
The number of subchunks, and their cumulated size, that follow the last whole
chunk in the available bits, when the next ones are numbered from `subchunkIndex`.
-/
def supplementalSubchunks (subchunkIndex available : ℕ) : ℕ → ℕ × ℕ → ℕ × ℕ
  | 0, found => found
  | tries + 1, (supplemental, cumulatedsize) =>
      let size := shape.subchunkSizes ((subchunkIndex + supplemental) % shape.intUint64PerChunk)
      if cumulatedsize + size ≤ available then
        supplementalSubchunks subchunkIndex available tries
          (supplemental + 1, cumulatedsize + size)
      else (supplemental, cumulatedsize)

/-- Read one subchunk out of the window. -/
def readSubchunk (buffer : ℤ → UInt8) (state : WindowState) : WindowState :=
  { state with
    splitData := Function.update state.splitData state.tmpdata
      ((loadWord buffer state.pointer64 >>> state.bitsread) &&&
        shape.subchunkMasks state.subchunkIndex)
    tmpdata := state.tmpdata + 1
    i := state.i + 1
    bitsread := state.bitsread + shape.subchunkSizes state.subchunkIndex
    subchunkIndex := shape.nextSubchunk state.subchunkIndex }

/-- Read subchunks as long as they fit into the window, but no more than `totalSubChunks`. -/
def readWindow (fuel : ℕ) (buffer : ℤ → UInt8) (totalSubChunks : ℕ) (state : WindowState) :
    Option WindowState :=
  whileLoop
    (fun state => state.bitsread + shape.subchunkSizes state.subchunkIndex ≤ 64 &&
      state.i ≠ totalSubChunks)
    (fun state => some (shape.readSubchunk buffer state)) fuel state

/-- The window after moving to the given offset. -/
def moveTo (state : WindowState) (pointer64 bitsread bitstoread : ℕ) : WindowState :=
  { state with pointer64 := pointer64, bitsread := bitsread, bitstoread := bitstoread }

@[simp]
theorem moveTo_i (state : WindowState) (pointer64 bitsread bitstoread : ℕ) :
    (moveTo state pointer64 bitsread bitstoread).i = state.i := rfl

@[simp]
theorem moveTo_bitsread (state : WindowState) (pointer64 bitsread bitstoread : ℕ) :
    (moveTo state pointer64 bitsread bitstoread).bitsread = bitsread := rfl

def moveByte (state : WindowState) : WindowState :=
  moveTo state (state.pointer64 + 1) (wordSub state.bitsread 8) (wordSub state.bitstoread 8)

def moveWindow (fuel : ℕ) (state : WindowState) : Option WindowState :=
  if 128 < state.bitstoread then
    let shift := state.bitsread >>> 3
    some (moveTo state (state.pointer64 + shift) (wordSub state.bitsread (shift <<< 3))
      (wordSub state.bitstoread (shift <<< 3)))
  else
    whileLoop
      (fun state => wordSub 64 state.bitsread < shape.subchunkSizes state.subchunkIndex &&
        0 < state.bitstoread)
      (fun state => some (moveByte state)) fuel state

/--
The last partial subchunk is read in part from this buffer and in part from the
next one, if there is one. The window may have to move back for the first part.
-/
def finishBuffer (buffers : ℕ → ℤ → UInt8) (bufferIndex bitsremaining : ℕ)
    (state : WindowState) : SplitState :=
  if bitsremaining ≠ 0 then
    let shift := wordSub 64 (state.bitsread + bitsremaining) / 8
    let bitsread := state.bitsread + shift <<< 3
    let low := (loadWord (buffers bufferIndex) (state.pointer64 - shift) >>> bitsread) &&&
      (2 ^ bitsremaining - 1)
    if bufferIndex < shape.nbrOfBuffers - 1 then
      let high := ((loadWord (buffers (bufferIndex + 1)) 0 <<< bitsremaining) % 2 ^ 64) &&&
        shape.subchunkMasks state.subchunkIndex
      { splitData := Function.update state.splitData state.tmpdata (low ||| high)
        tmpdata := state.tmpdata + 1
        bitsread := wordSub (shape.subchunkSizes state.subchunkIndex) bitsremaining
        subchunkIndex := shape.nextSubchunk state.subchunkIndex }
    else
      { state.toSplitState with
        splitData := Function.update state.splitData state.tmpdata low
        bitsread := bitsread }
  else { state.toSplitState with bitsread := 0 }

def bsLoop (fuel : ℕ) (buffers : ℕ → ℤ → UInt8) (bufferIndex : ℕ) (state : SplitState) :
    Option SplitState :=
  let bitstoread := wordSub shape.bitsPerBuffer state.bitsread
  let intNbChunks := bitstoread / shape.bitsPerChunk
  let available := wordSub bitstoread (intNbChunks * shape.bitsPerChunk)
  let supplemental := shape.supplementalSubchunks state.subchunkIndex available
    shape.intUint64PerChunk (0, 0)
  let totalSubChunks := intNbChunks * shape.intUint64PerChunk + supplemental.1
  let bitsremaining := wordSub available supplemental.2
  (whileLoop (fun state => state.i < totalSubChunks)
    (fun state => (shape.readWindow fuel (buffers bufferIndex) totalSubChunks state).bind
      (shape.moveWindow fuel))
    fuel { state with i := 0, pointer64 := 0, bitstoread := bitstoread }).map
      (shape.finishBuffer buffers bufferIndex bitsremaining)

/-- The loop of `bitsplitter` over the buffers, on a zeroed array. -/
def splitBuffers (fuel : ℕ) (buffers : ℕ → ℤ → UInt8) : Option SplitState :=
  forLoop shape.nbrOfBuffers
    (fun bufferIndex state => state.bind (shape.bsLoop fuel buffers bufferIndex))
    (some { splitData := fun _ => 0, tmpdata := 0, bitsread := 0, subchunkIndex := 0 })

/-- The contents of all the buffers as one bit string. -/
def bits (buffers : ℕ → ℤ → UInt8) : ℕ :=
  littleEndian
    (fun byte => buffers (byte / shape.bytesPerBuffer) (byte % shape.bytesPerBuffer : ℕ))
    (shape.nbrOfBuffers * shape.bytesPerBuffer)

def start (index : ℕ) : ℕ := subchunkStart 56 shape.bitsPerChunk index

/-- The subchunk of the given index, as a slice of the bit string. -/
def subchunk (buffers : ℕ → ℤ → UInt8) (index : ℕ) : ℕ :=
  bitSlice (shape.bits buffers) (shape.start index)
    (shape.subchunkSizes (index % shape.intUint64PerChunk))

section Geometry

theorem intUint64PerChunk_pos : 0 < shape.intUint64PerChunk :=
  subchunkCount_pos (by decide) shape.chunk_pos

theorem subchunkSizes_le (index : ℕ) : shape.subchunkSizes index ≤ 56 :=
  subchunkSize_le (by decide) shape.chunk_pos index

@[simp]
theorem start_zero : shape.start 0 = 0 := by
  simp [start, subchunkStart]

theorem start_succ (index : ℕ) :
    shape.start (index + 1) =
      shape.start index + shape.subchunkSizes (index % shape.intUint64PerChunk) :=
  subchunkStart_succ (by decide) shape.chunk_pos index

theorem start_strictMono : StrictMono shape.start :=
  subchunkStart_strictMono (by decide) shape.chunk_pos

theorem start_add_mul (index count : ℕ) :
    shape.start (index + count * shape.intUint64PerChunk) =
      shape.start index + count * shape.bitsPerChunk :=
  subchunkStart_add_mul (by decide) shape.chunk_pos index count

theorem start_add_le (index count : ℕ) : shape.start index + count ≤ shape.start (index + count) := by
  induction count with
  | zero => exact le_rfl
  | succ count ih =>
      have later := shape.start_strictMono (lt_add_one (index + count))
      rw [← Nat.add_assoc, ← Nat.add_assoc]
      omega

theorem nextSubchunk_mod (index : ℕ) :
    shape.nextSubchunk (index % shape.intUint64PerChunk) =
      (index + 1) % shape.intUint64PerChunk := by
  have part_lt := Nat.mod_lt index shape.intUint64PerChunk_pos
  rw [nextSubchunk, ← Nat.mod_add_mod]
  split
  next last => rw [last, Nat.mod_self]
  next inner => exact (Nat.mod_eq_of_lt (by omega)).symm

theorem bits_lt_two_pow (buffers : ℕ → ℤ → UInt8) :
    shape.bits buffers < 2 ^ (shape.nbrOfBuffers * shape.bitsPerBuffer) := by
  rw [bitsPerBuffer, Nat.mul_left_comm]
  exact littleEndian_lt _ _

/-- The supplemental subchunks fill the available bits as far as possible. -/
theorem supplementalSubchunks_spec {first available tries : ℕ} {found : ℕ × ℕ}
    (enough : shape.start first + available < shape.start (first + found.1 + tries))
    (cumulated : shape.start (first + found.1) = shape.start first + found.2)
    (fits : found.2 ≤ available) :
    let result := shape.supplementalSubchunks (first % shape.intUint64PerChunk) available tries found
    shape.start (first + result.1) = shape.start first + result.2 ∧ result.2 ≤ available ∧
      available < result.2 +
        shape.subchunkSizes ((first + result.1) % shape.intUint64PerChunk) := by
  induction tries generalizing found with
  | zero =>
      rw [add_zero, cumulated] at enough
      omega
  | succ tries ih =>
      rw [supplementalSubchunks, Nat.mod_add_mod]
      have next := shape.start_succ (first + found.1)
      rw [cumulated] at next
      split
      next more =>
        apply ih
        · simpa only [Nat.add_assoc, Nat.add_comm 1] using enough
        · rw [← Nat.add_assoc, next, Nat.add_assoc]
        · exact more
      next full => exact ⟨cumulated, fits, not_le.mp full⟩

end Geometry

section Reading

variable {shape} {buffers : ℕ → ℤ → UInt8} {bufferIndex : ℕ}

theorem testBit_bits (index_lt : bufferIndex < shape.nbrOfBuffers) {position : ℕ}
    (position_lt : position < shape.bitsPerBuffer) :
    (shape.bits buffers).testBit (bufferIndex * shape.bitsPerBuffer + position) =
      (buffers bufferIndex (position / 8 : ℕ)).toNat.testBit (position % 8) := by
  have byte_lt : position / 8 < shape.bytesPerBuffer := by
    rw [bitsPerBuffer] at position_lt
    omega
  have within : bufferIndex * shape.bitsPerBuffer + position <
      8 * (shape.nbrOfBuffers * shape.bytesPerBuffer) := by
    rw [Nat.mul_left_comm]
    calc bufferIndex * shape.bitsPerBuffer + position
        < (bufferIndex + 1) * shape.bitsPerBuffer := by rw [Nat.succ_mul]; omega
      _ ≤ shape.nbrOfBuffers * shape.bitsPerBuffer := Nat.mul_le_mul_right _ index_lt
  have position_eq : bufferIndex * shape.bitsPerBuffer + position =
      8 * (bufferIndex * shape.bytesPerBuffer) + position := by
    rw [bitsPerBuffer, Nat.mul_left_comm]
  rw [bits, testBit_littleEndian, decide_eq_true within, Bool.true_and, position_eq,
    Nat.mul_add_div (by decide), Nat.mul_add_mod, mul_comm bufferIndex,
    Nat.mul_add_div (Nat.zero_lt_of_lt byte_lt), Nat.mul_add_mod, Nat.div_eq_of_lt byte_lt, add_zero,
    Nat.mod_eq_of_lt byte_lt]

/-- What is read through the window is a slice, if it lies inside the window and the buffer. -/
theorem loadWord_slice (buffers : ℕ → ℤ → UInt8) (index_lt : bufferIndex < shape.nbrOfBuffers)
    {pointer : ℤ} {bitsread length position : ℕ} (position_eq : (position : ℤ) = 8 * pointer + bitsread)
    (window : bitsread + length ≤ 64) (inside : position + length ≤ shape.bitsPerBuffer) :
    (loadWord (buffers bufferIndex) pointer >>> bitsread) &&& (2 ^ length - 1) =
      bitSlice (shape.bits buffers) (bufferIndex * shape.bitsPerBuffer + position) length := by
  apply Nat.eq_of_testBit_eq
  intro bit
  rw [Nat.and_two_pow_sub_one_eq_mod, Nat.testBit_mod_two_pow, testBit_bitSlice]
  by_cases bit_lt : bit < length
  · have byte_eq : pointer + ((bitsread + bit) / 8 : ℕ) = ((position + bit) / 8 : ℕ) := by omega
    have bit_eq : (bitsread + bit) % 8 = (position + bit) % 8 := by omega
    have loaded : bitsread + bit < 64 := by omega
    rw [Nat.testBit_shiftRight, testBit_loadWord, add_assoc (bufferIndex * _),
      testBit_bits index_lt (by omega), byte_eq, bit_eq]
    simp [loaded]
  · simp [bit_lt]

end Reading

section Window

/-- The state in which `bs_loop` starts on a buffer. -/
structure AtBuffer (buffers : ℕ → ℤ → UInt8) (bufferIndex : ℕ) (state : SplitState) : Prop where
  position : bufferIndex * shape.bitsPerBuffer + state.bitsread = shape.start state.tmpdata
  index : state.subchunkIndex = state.tmpdata % shape.intUint64PerChunk
  carried_le : state.bitsread ≤ 55
  carried_first : bufferIndex = 0 → state.bitsread = 0
  data : ∀ index, state.splitData index =
    if index < state.tmpdata then shape.subchunk buffers index else 0

/-- What the counts computed at the beginning of a buffer mean. -/
structure Counts (bufferIndex carried first total remaining : ℕ) : Prop where
  index_lt : bufferIndex < shape.nbrOfBuffers
  carried_le : carried ≤ 55
  begins : bufferIndex * shape.bitsPerBuffer + carried = shape.start first
  ends : shape.start (first + total) + remaining = (bufferIndex + 1) * shape.bitsPerBuffer
  remaining_lt : remaining < shape.subchunkSizes ((first + total) % shape.intUint64PerChunk)
  carried_none : total = 0 → carried = 0

/-- The invariant of the loops over the subchunks of a buffer. -/
structure Window (buffers : ℕ → ℤ → UInt8) (bufferIndex carried first total : ℕ)
    (state : WindowState) : Prop where
  position : bufferIndex * shape.bitsPerBuffer + (8 * state.pointer64 + state.bitsread) =
    shape.start state.tmpdata
  progress : state.tmpdata = first + state.i
  i_le : state.i ≤ total
  index : state.subchunkIndex = state.tmpdata % shape.intUint64PerChunk
  bitsread_le : state.bitsread ≤ 64
  bitstoread : (state.bitstoread + (carried + 8 * state.pointer64)) % 2 ^ 64 = shape.bitsPerBuffer
  data : ∀ index, state.splitData index =
    if index < state.tmpdata then shape.subchunk buffers index else 0

/-- Whatever is left to read of the next subchunk fits into the window. -/
def Ready (bufferIndex : ℕ) (state : WindowState) : Prop :=
  ∀ length ≤ shape.subchunkSizes state.subchunkIndex,
    shape.start state.tmpdata + length ≤ (bufferIndex + 1) * shape.bitsPerBuffer →
      state.bitsread + length ≤ 64

variable {shape} {buffers : ℕ → ℤ → UInt8} {bufferIndex carried first total remaining : ℕ}

theorem AtBuffer.carried_wide {state : SplitState}
    (at_buffer : shape.AtBuffer buffers bufferIndex state)
    (index_lt : bufferIndex < shape.nbrOfBuffers) :
    state.bitsread = 0 ∨ 128 ≤ shape.bitsPerBuffer := by
  rcases shape.wide with single | wide
  · left
    exact at_buffer.carried_first (by omega)
  · right
    rw [bitsPerBuffer]
    omega

theorem AtBuffer.counts {state : SplitState} (at_buffer : shape.AtBuffer buffers bufferIndex state)
    (index_lt : bufferIndex < shape.nbrOfBuffers) {bitstoread : ℕ} {supplemental : ℕ × ℕ}
    (bitstoread_eq : bitstoread = wordSub shape.bitsPerBuffer state.bitsread)
    (supplemental_eq : supplemental = shape.supplementalSubchunks state.subchunkIndex
      (wordSub bitstoread (bitstoread / shape.bitsPerChunk * shape.bitsPerChunk))
      shape.intUint64PerChunk (0, 0)) :
    shape.Counts bufferIndex state.bitsread state.tmpdata
      (bitstoread / shape.bitsPerChunk * shape.intUint64PerChunk + supplemental.1)
      (wordSub (wordSub bitstoread (bitstoread / shape.bitsPerChunk * shape.bitsPerChunk))
        supplemental.2) := by
  have bits_lt : shape.bitsPerBuffer < 2 ^ 64 := shape.bits_lt
  have position := at_buffer.position
  have carried_le := at_buffer.carried_le
  have carried_wide := at_buffer.carried_wide index_lt
  have available_lt := Nat.mod_lt bitstoread shape.chunk_pos
  have whole := Nat.div_add_mod' bitstoread shape.bitsPerChunk
  rw [wordSub_eq_sub (by omega) (by omega)] at bitstoread_eq
  rw [wordSub_eq_sub (Nat.div_mul_le_self _ _) (by omega), ← Nat.mod_eq_sub_div_mul]
    at supplemental_eq ⊢
  generalize bitstoread % shape.bitsPerChunk = available at *
  generalize bitstoread / shape.bitsPerChunk = chunks at *
  have next_chunk := shape.start_add_mul state.tmpdata 1
  have enough : shape.start state.tmpdata + available <
      shape.start (state.tmpdata + 0 + shape.intUint64PerChunk) := by
    rw [one_mul, one_mul] at next_chunk
    rw [add_zero, next_chunk]
    omega
  have none_found : ((0, 0) : ℕ × ℕ).2 ≤ available := Nat.zero_le _
  rcases shape.supplementalSubchunks_spec enough rfl none_found with ⟨cumulated, fits, full⟩
  rw [← at_buffer.index, ← supplemental_eq] at cumulated fits full
  have total_eq : state.tmpdata + (chunks * shape.intUint64PerChunk + supplemental.1) =
      state.tmpdata + supplemental.1 + chunks * shape.intUint64PerChunk := by omega
  rw [wordSub_eq_sub fits (by omega)]
  refine ⟨index_lt, carried_le, position, ?_, ?_, ?_⟩
  · rw [total_eq, shape.start_add_mul, cumulated, Nat.succ_mul]
    omega
  · rw [total_eq, Nat.add_mul_mod_self_right]
    omega
  · intro none
    have no_chunks : chunks = 0 := by
      have count_pos := shape.intUint64PerChunk_pos
      rcases Nat.mul_eq_zero.mp (Nat.eq_zero_of_add_eq_zero_right none) with zero | zero
      · exact zero
      · omega
    have size_le := shape.subchunkSizes_le ((state.tmpdata + supplemental.1) %
      shape.intUint64PerChunk)
    rw [Nat.eq_zero_of_add_eq_zero_left none, add_zero, ← position] at cumulated
    rw [no_chunks, zero_mul] at whole
    omega

theorem update_data {splitData : ℕ → ℕ} {tmpdata value : ℕ}
    (data : ∀ index, splitData index =
      if index < tmpdata then shape.subchunk buffers index else 0)
    (value_eq : value = shape.subchunk buffers tmpdata) (index : ℕ) :
    Function.update splitData tmpdata value index =
      if index < tmpdata + 1 then shape.subchunk buffers index else 0 := by
  rcases lt_trichotomy index tmpdata with before | rfl | after
  · rw [Function.update_of_ne before.ne, data, if_pos before, if_pos (by omega)]
  · rw [Function.update_self, if_pos (Nat.lt_succ_self _), value_eq]
  · rw [Function.update_of_ne after.ne', data, if_neg (by omega), if_neg (by omega)]

theorem Window.start_le {state : WindowState}
    (window : shape.Window buffers bufferIndex carried first total state) :
    shape.start state.tmpdata ≤ shape.start (first + total) := by
  apply shape.start_strictMono.monotone
  rw [window.progress]
  exact Nat.add_le_add_left window.i_le first

theorem Window.consumed_le {state : WindowState}
    (counts : shape.Counts bufferIndex carried first total remaining)
    (window : shape.Window buffers bufferIndex carried first total state) :
    8 * state.pointer64 + state.bitsread ≤ shape.bitsPerBuffer := by
  have position := window.position
  have ends := counts.ends
  have start_le := window.start_le
  rw [Nat.succ_mul] at ends
  omega

theorem Window.next_start_le {state : WindowState}
    (window : shape.Window buffers bufferIndex carried first total state)
    (unfinished : state.i < total) :
    shape.start state.tmpdata + shape.subchunkSizes state.subchunkIndex ≤
      shape.start (first + total) := by
  rw [window.index, ← shape.start_succ, window.progress, Nat.add_assoc]
  apply shape.start_strictMono.monotone
  omega

/-- Reading a subchunk that fits into the window stores the right slice. -/
theorem Window.readSubchunk {state : WindowState}
    (counts : shape.Counts bufferIndex carried first total remaining)
    (window : shape.Window buffers bufferIndex carried first total state)
    (unfinished : state.i < total)
    (fits : state.bitsread + shape.subchunkSizes state.subchunkIndex ≤ 64) :
    shape.Window buffers bufferIndex carried first total
      (shape.readSubchunk (buffers bufferIndex) state) := by
  have position := window.position
  have next := window.next_start_le unfinished
  have ends := counts.ends
  rw [Nat.succ_mul] at ends
  have position_eq : ((8 * state.pointer64 + state.bitsread : ℕ) : ℤ) =
      8 * (state.pointer64 : ℤ) + state.bitsread := by omega
  have value := loadWord_slice buffers counts.index_lt position_eq fits (by omega)
  rw [position, window.index] at value
  refine ⟨?_, ?_, unfinished, ?_, fits, window.bitstoread, ?_⟩
  · change _ + (8 * state.pointer64 + (state.bitsread + _)) = shape.start (state.tmpdata + 1)
    rw [shape.start_succ, ← position, ← window.index]
    omega
  · change state.tmpdata + 1 = first + (state.i + 1)
    rw [window.progress, Nat.add_assoc]
  · change shape.nextSubchunk state.subchunkIndex = _
    rw [window.index, nextSubchunk_mod]
    rfl
  · apply update_data window.data
    rw [window.index]
    exact value

theorem Window.readWindow (fuel : ℕ) {state : WindowState}
    (counts : shape.Counts bufferIndex carried first total remaining)
    (window : shape.Window buffers bufferIndex carried first total state)
    (enough : total < fuel) :
    ∃ filled, shape.readWindow fuel (buffers bufferIndex) total state = some filled ∧
      shape.Window buffers bufferIndex carried first total filled ∧ state.i ≤ filled.i ∧
      (state.bitsread + shape.subchunkSizes state.subchunkIndex ≤ 64 → state.i < total →
        state.i < filled.i) := by
  -- Until the first subchunk has been read, the state is the initial one.
  rcases whileLoop_total
    (fun state : WindowState =>
      state.bitsread + shape.subchunkSizes state.subchunkIndex ≤ 64 && state.i ≠ total)
    (fun state => some (shape.readSubchunk (buffers bufferIndex) state))
    (fun filled => shape.Window buffers bufferIndex carried first total filled ∧
      (filled = state ∨ state.i < filled.i))
    (fun filled => total - filled.i)
    (by
      rintro filled ⟨holds, later⟩ continues
      simp only [Bool.and_eq_true, decide_eq_true_eq] at continues
      have unfinished : filled.i < total := lt_of_le_of_ne holds.i_le continues.2
      refine ⟨_, rfl, ⟨holds.readSubchunk counts unfinished continues.1, ?_⟩, ?_⟩
      · right
        change state.i < filled.i + 1
        rcases later with rfl | later <;> omega
      · change total - (filled.i + 1) < total - filled.i
        omega)
    fuel state ⟨window, Or.inl rfl⟩ (by omega) with ⟨filled, runs, ⟨holds, later⟩, stops⟩
  refine ⟨filled, runs, holds, ?_, ?_⟩
  · rcases later with rfl | later <;> omega
  · intro fits unfinished
    rcases later with rfl | later
    · simp [fits, unfinished.ne] at stops
    · exact later

theorem wordSub_add_mod (x y z : ℕ) : (wordSub x y + (z + y)) % 2 ^ 64 = (x + z) % 2 ^ 64 := by
  rw [wordSub]
  omega

/-- Moving the window by whole bytes does not change what comes next. -/
theorem Window.moveTo {state : WindowState}
    (window : shape.Window buffers bufferIndex carried first total state) (count : ℕ)
    {bitsread bitstoread : ℕ} (bitsread_eq : bitsread + 8 * count = state.bitsread)
    (bitstoread_eq : bitstoread = wordSub state.bitstoread (8 * count)) :
    shape.Window buffers bufferIndex carried first total
      (moveTo state (state.pointer64 + count) bitsread bitstoread) := by
  have position := window.position
  have bitsread_le := window.bitsread_le
  refine ⟨?_, window.progress, window.i_le, window.index, ?_, ?_, window.data⟩
  · change _ + (8 * (state.pointer64 + count) + bitsread) = shape.start state.tmpdata
    omega
  · change bitsread ≤ 64
    omega
  · change (bitstoread + (carried + 8 * (state.pointer64 + count))) % 2 ^ 64 = _
    rw [bitstoread_eq, Nat.mul_add, ← Nat.add_assoc carried, wordSub_add_mod]
    exact window.bitstoread

theorem Window.moveByte {state : WindowState}
    (window : shape.Window buffers bufferIndex carried first total state)
    (used : 8 ≤ state.bitsread) :
    shape.Window buffers bufferIndex carried first total (moveByte state) := by
  have bitsread_le := window.bitsread_le
  apply window.moveTo 1
  · rw [wordSub_eq_sub used (by omega), Nat.mul_one, Nat.sub_add_cancel used]
  · rw [Nat.mul_one]

/-- If no bits are left to read, the window has come back to where the buffer ends. -/
theorem Window.ready_of_exhausted {state : WindowState}
    (counts : shape.Counts bufferIndex carried first total remaining)
    (window : shape.Window buffers bufferIndex carried first total state)
    (exhausted : state.bitstoread = 0) : shape.Ready bufferIndex state := by
  intro length _ inside
  have bits_lt : shape.bitsPerBuffer < 2 ^ 64 := shape.bits_lt
  have position := window.position
  have consumed := window.consumed_le counts
  have carried_le := counts.carried_le
  have bitstoread := window.bitstoread
  rw [exhausted, zero_add] at bitstoread
  rw [Nat.succ_mul] at inside
  omega

theorem Window.moveWindow (fuel : ℕ) {state : WindowState}
    (counts : shape.Counts bufferIndex carried first total remaining)
    (window : shape.Window buffers bufferIndex carried first total state) (enough : 64 < fuel) :
    ∃ next, shape.moveWindow fuel state = some next ∧
      shape.Window buffers bufferIndex carried first total next ∧ next.i = state.i ∧
      shape.Ready bufferIndex next := by
  have bitsread_le := window.bitsread_le
  rw [SplitShape.moveWindow]
  split
  next far =>
    have shift_eq : state.bitsread >>> 3 <<< 3 = 8 * (state.bitsread / 8) := by
      rw [Nat.shiftLeft_eq, Nat.shiftRight_eq_div_pow, mul_comm]
    have bitsread_eq : wordSub state.bitsread (8 * (state.bitsread / 8)) =
        state.bitsread - 8 * (state.bitsread / 8) := wordSub_eq_sub (by omega) (by omega)
    have size_le := shape.subchunkSizes_le state.subchunkIndex
    simp only [shift_eq, bitsread_eq]
    refine ⟨_, rfl, ?_, rfl, ?_⟩
    · rw [Nat.shiftRight_eq_div_pow]
      exact window.moveTo (state.bitsread / 8) (Nat.sub_add_cancel (by omega)) rfl
    · intro length length_le _
      change length ≤ shape.subchunkSizes state.subchunkIndex at length_le
      change state.bitsread - 8 * (state.bitsread / 8) + length ≤ 64
      omega
  next near =>
    rcases whileLoop_total
      (fun state : WindowState =>
        wordSub 64 state.bitsread < shape.subchunkSizes state.subchunkIndex &&
          0 < state.bitstoread)
      (fun state => some (SplitShape.moveByte state))
      (fun next => shape.Window buffers bufferIndex carried first total next ∧
        next.i = state.i)
      (fun next => next.bitsread)
      (by
        rintro next ⟨holds, same⟩ continues
        simp only [Bool.and_eq_true, decide_eq_true_eq] at continues
        have next_le := holds.bitsread_le
        have size_le := shape.subchunkSizes_le next.subchunkIndex
        rw [wordSub_eq_sub next_le (by omega)] at continues
        have used : 8 ≤ next.bitsread := by omega
        refine ⟨_, rfl, ⟨holds.moveByte used, ?_⟩, ?_⟩
        · rw [SplitShape.moveByte, moveTo_i, same]
        · rw [SplitShape.moveByte, moveTo_bitsread, wordSub_eq_sub used (by omega)]
          omega)
      fuel state ⟨window, rfl⟩ (by omega) with ⟨next, runs, ⟨holds, same⟩, stops⟩
    refine ⟨next, runs, holds, same, ?_⟩
    have next_le := holds.bitsread_le
    simp only [Bool.and_eq_false_iff, decide_eq_false_iff_not, not_lt] at stops
    rw [wordSub_eq_sub next_le (by omega)] at stops
    rcases stops with fits | exhausted
    · intro length length_le _
      omega
    · exact holds.ready_of_exhausted counts (Nat.le_zero.mp exhausted)

/-- The loop over the subchunks of a buffer ends with all of them read. -/
theorem Window.loop (fuel : ℕ) {state : WindowState}
    (counts : shape.Counts bufferIndex carried first total remaining)
    (window : shape.Window buffers bufferIndex carried first total state)
    (ready : state.i = total → shape.Ready bufferIndex state)
    (enough : 2 * total + 65 < fuel) :
    ∃ final, whileLoop (fun state : WindowState => state.i < total)
        (fun state => (shape.readWindow fuel (buffers bufferIndex) total state).bind
          (shape.moveWindow fuel)) fuel state = some final ∧
      shape.Window buffers bufferIndex carried first total final ∧ final.i = total ∧
      shape.Ready bufferIndex final := by
  -- A round that reads nothing makes the next subchunk fit.
  rcases whileLoop_total
    (fun state : WindowState => state.i < total)
    (fun state => (shape.readWindow fuel (buffers bufferIndex) total state).bind
      (shape.moveWindow fuel))
    (fun final => shape.Window buffers bufferIndex carried first total final ∧
      (final.i = total → shape.Ready bufferIndex final))
    (fun final => 2 * (total - final.i) +
      if final.bitsread + shape.subchunkSizes final.subchunkIndex ≤ 64 then 0 else 1)
    (by
      rintro current ⟨holds, _⟩ continues
      have unfinished : current.i < total := of_decide_eq_true continues
      rcases holds.readWindow fuel counts (by omega) with
        ⟨filled, reads, filledHolds, progress, advances⟩
      rcases filledHolds.moveWindow fuel counts (by omega) with
        ⟨next, moves, nextHolds, same, nextReady⟩
      refine ⟨next, by rw [reads]; exact moves, ⟨nextHolds, fun _ => nextReady⟩, ?_⟩
      have next_fits : next.i < total →
          next.bitsread + shape.subchunkSizes next.subchunkIndex ≤ 64 := by
        intro next_unfinished
        apply nextReady _ le_rfl
        have next_start := nextHolds.next_start_le next_unfinished
        have ends := counts.ends
        omega
      by_cases fits : current.bitsread + shape.subchunkSizes current.subchunkIndex ≤ 64
      · have later := advances fits unfinished
        rw [if_pos fits]
        split <;> omega
      · rw [if_neg fits]
        rcases Nat.lt_or_ge next.i total with next_unfinished | finished
        · rw [if_pos (next_fits next_unfinished)]
          omega
        · split <;> omega)
    fuel state ⟨window, ready⟩ (by split <;> omega)
    with ⟨final, runs, ⟨holds, finalReady⟩, stops⟩
  have finished : final.i = total :=
    le_antisymm holds.i_le (not_lt.mp (of_decide_eq_false stops))
  exact ⟨final, runs, holds, finished, finalReady finished⟩

/-- The end of a finished buffer is where the next one begins. -/
theorem Window.start_eq {state : WindowState}
    (counts : shape.Counts bufferIndex carried first total remaining)
    (window : shape.Window buffers bufferIndex carried first total state)
    (finished : state.i = total) :
    shape.start state.tmpdata + remaining = (bufferIndex + 1) * shape.bitsPerBuffer ∧
      remaining < shape.subchunkSizes state.subchunkIndex := by
  have progress := window.progress
  rw [finished] at progress
  rw [window.index, progress]
  exact ⟨counts.ends, counts.remaining_lt⟩

/-- The first part of a partial subchunk, read after moving the window back. -/
theorem Window.low_eq {state : WindowState}
    (counts : shape.Counts bufferIndex carried first total remaining)
    (window : shape.Window buffers bufferIndex carried first total state)
    (finished : state.i = total) (fits : state.bitsread + remaining ≤ 64) :
    (loadWord (buffers bufferIndex)
        (state.pointer64 - (wordSub 64 (state.bitsread + remaining) / 8 : ℕ)) >>>
          (state.bitsread + (wordSub 64 (state.bitsread + remaining) / 8) <<< 3)) &&&
        (2 ^ remaining - 1) =
      bitSlice (shape.bits buffers) (shape.start state.tmpdata) remaining := by
  have position := window.position
  have ends := (window.start_eq counts finished).1
  rw [Nat.succ_mul] at ends
  rw [wordSub_eq_sub fits (by omega), Nat.shiftLeft_eq, ← position]
  apply loadWord_slice buffers counts.index_lt <;> omega

/-- The second part of a partial subchunk, read from the next buffer. -/
theorem high_eq (index_lt : bufferIndex + 1 < shape.nbrOfBuffers) {size : ℕ}
    (remaining_le : remaining ≤ size) (size_le : size ≤ 56) (inside : size ≤ shape.bitsPerBuffer) :
    ((loadWord (buffers (bufferIndex + 1)) 0 <<< remaining) % 2 ^ 64) &&& (2 ^ size - 1) =
      bitSlice (shape.bits buffers) ((bufferIndex + 1) * shape.bitsPerBuffer)
        (size - remaining) <<< remaining := by
  have position_eq : ((0 : ℕ) : ℤ) = 8 * 0 + (0 : ℕ) := rfl
  have length_le : 0 + (size - remaining) ≤ shape.bitsPerBuffer := by omega
  have value := loadWord_slice buffers index_lt position_eq (by omega) length_le
  rw [Nat.shiftRight_zero, add_zero, Nat.and_two_pow_sub_one_eq_mod] at value
  rw [← value, Nat.and_two_pow_sub_one_eq_mod, Nat.mod_mod_of_dvd _ (pow_dvd_pow 2 (by omega)),
    Nat.shiftLeft_eq, Nat.shiftLeft_eq, ← Nat.mul_mod_mul_right, ← pow_add,
    Nat.sub_add_cancel remaining_le]

/-- The state after a partial subchunk has been completed from the next buffer. -/
theorem Window.finishBuffer {state : WindowState}
    (counts : shape.Counts bufferIndex carried first total remaining)
    (window : shape.Window buffers bufferIndex carried first total state)
    (finished : state.i = total) (ready : shape.Ready bufferIndex state)
    (more : bufferIndex + 1 < shape.nbrOfBuffers) :
    shape.AtBuffer buffers (bufferIndex + 1)
      (shape.finishBuffer buffers bufferIndex remaining state) := by
  rcases window.start_eq counts finished with ⟨ends, remaining_lt⟩
  have size_le := shape.subchunkSizes_le state.subchunkIndex
  rw [SplitShape.finishBuffer]
  split
  next partly =>
    have fits := ready remaining remaining_lt.le ends.le
    have inside : 128 ≤ shape.bitsPerBuffer := by
      rw [bitsPerBuffer]
      rcases shape.wide with single | wide <;> omega
    rw [if_pos (by omega)]
    refine ⟨?_, ?_, ?_, ?_, ?_⟩
    · change _ + wordSub _ _ = shape.start (state.tmpdata + 1)
      rw [wordSub_eq_sub remaining_lt.le (by omega), shape.start_succ, ← window.index]
      omega
    · change shape.nextSubchunk state.subchunkIndex = _
      rw [window.index, nextSubchunk_mod]
    · change wordSub _ _ ≤ 55
      rw [wordSub_eq_sub remaining_lt.le (by omega)]
      omega
    · intro zero
      omega
    · apply update_data window.data
      rw [window.low_eq counts finished fits]
      rw [subchunkMasks, high_eq more remaining_lt.le size_le (by omega), ← ends, bitSlice_lor,
        Nat.add_sub_cancel' remaining_lt.le, window.index]
      rfl
  next whole =>
    have none : remaining = 0 := not_not.mp whole
    rw [none, add_zero] at ends
    exact ⟨ends.symm, window.index, Nat.zero_le _, fun _ => rfl, window.data⟩

/-- After the last buffer, every subchunk is there. -/
theorem Window.finishLast {state : WindowState}
    (counts : shape.Counts bufferIndex carried first total remaining)
    (window : shape.Window buffers bufferIndex carried first total state)
    (finished : state.i = total) (ready : shape.Ready bufferIndex state)
    (last : bufferIndex + 1 = shape.nbrOfBuffers) (index : ℕ) :
    (shape.finishBuffer buffers bufferIndex remaining state).splitData index =
      shape.subchunk buffers index := by
  rcases window.start_eq counts finished with ⟨ends, remaining_lt⟩
  have bits_lt := shape.bits_lt_two_pow buffers
  rw [← last, ← ends] at bits_lt
  have beyond : ∀ index, shape.start state.tmpdata + remaining ≤ shape.start index →
      shape.subchunk buffers index = 0 := by
    intro index after
    exact bitSlice_eq_zero (bits_lt.trans_le (Nat.pow_le_pow_right (by decide) after)) _
  rw [SplitShape.finishBuffer]
  split
  next partly =>
    have fits := ready remaining remaining_lt.le ends.le
    have value : bitSlice (shape.bits buffers) (shape.start state.tmpdata) remaining =
        shape.subchunk buffers state.tmpdata := by
      rw [subchunk, ← window.index, ← Nat.add_sub_cancel' remaining_lt.le, bitSlice_add,
        bitSlice_eq_zero bits_lt, Nat.mul_zero, add_zero]
    rw [if_neg (by omega)]
    change Function.update state.splitData state.tmpdata _ index = _
    rw [window.low_eq counts finished fits, update_data window.data value]
    split
    next => rfl
    next later =>
      have after := shape.start_strictMono.monotone (not_lt.mp later)
      rw [shape.start_succ, ← window.index] at after
      exact (beyond index (by omega)).symm
  next whole =>
    change state.splitData index = _
    rw [window.data]
    split
    next => rfl
    next later =>
      have after := shape.start_strictMono.monotone (not_lt.mp later)
      exact (beyond index (by omega)).symm

theorem Counts.total_le (counts : shape.Counts bufferIndex carried first total remaining) :
    total ≤ shape.bitsPerBuffer := by
  have advance := shape.start_add_le first total
  have begins := counts.begins
  have ends := counts.ends
  rw [Nat.succ_mul] at ends
  omega

theorem AtBuffer.window {state : SplitState}
    (at_buffer : shape.AtBuffer buffers bufferIndex state) (total : ℕ) :
    shape.Window buffers bufferIndex state.bitsread state.tmpdata total
      { state with
        i := 0
        pointer64 := 0
        bitstoread := wordSub shape.bitsPerBuffer state.bitsread } := by
  have position := at_buffer.position
  have carried_le := at_buffer.carried_le
  have bits_lt : shape.bitsPerBuffer < 2 ^ 64 := shape.bits_lt
  refine ⟨?_, rfl, Nat.zero_le _, at_buffer.index, ?_, ?_, at_buffer.data⟩
  · rw [Nat.mul_zero, zero_add]
    exact position
  · change state.bitsread ≤ 64
    omega
  · have restored := wordSub_add_mod shape.bitsPerBuffer state.bitsread 0
    rw [zero_add, add_zero, Nat.mod_eq_of_lt bits_lt] at restored
    rw [Nat.mul_zero, add_zero]
    exact restored

/-- One buffer is split from a state at its beginning, into a state at the next beginning. -/
theorem AtBuffer.bsLoop {fuel : ℕ} {state : SplitState}
    (at_buffer : shape.AtBuffer buffers bufferIndex state)
    (index_lt : bufferIndex < shape.nbrOfBuffers) (enough : 2 * shape.bitsPerBuffer + 65 < fuel) :
    ∃ final, shape.bsLoop fuel buffers bufferIndex state = some final ∧
      (bufferIndex + 1 < shape.nbrOfBuffers → shape.AtBuffer buffers (bufferIndex + 1) final) ∧
      (bufferIndex + 1 = shape.nbrOfBuffers →
        ∀ index, final.splitData index = shape.subchunk buffers index) := by
  have counts := at_buffer.counts index_lt rfl rfl
  have total_le := counts.total_le
  have ready : ∀ total, (total = 0 → state.bitsread = 0) → 0 = total →
      shape.Ready bufferIndex
        { state with
          i := 0
          pointer64 := 0
          bitstoread := wordSub shape.bitsPerBuffer state.bitsread } := by
    intro total carried_none zero length length_le _
    have size_le := shape.subchunkSizes_le state.subchunkIndex
    change length ≤ shape.subchunkSizes state.subchunkIndex at length_le
    change state.bitsread + length ≤ 64
    rw [carried_none zero.symm]
    omega
  rcases (at_buffer.window _).loop fuel counts (ready _ counts.carried_none) (by omega) with ⟨last, runs, window, finished, lastReady⟩
  exact ⟨_, congrArg (Option.map _) runs, window.finishBuffer counts finished lastReady,
    window.finishLast counts finished lastReady⟩

end Window

/-- The buffers are split into the slices of their bit string, and the loops end. -/
theorem splitBuffers_eq (buffers : ℕ → ℤ → UInt8) (fuel : ℕ)
    (enough : 2 * shape.bitsPerBuffer + 65 < fuel) :
    ∃ final, shape.splitBuffers fuel buffers = some final ∧
      ∀ index, final.splitData index = shape.subchunk buffers index := by
  have run := forLoop_induction shape.nbrOfBuffers
    (fun bufferIndex state => state.bind (shape.bsLoop fuel buffers bufferIndex))
    (some ⟨fun _ => 0, 0, 0, 0⟩)
    (fun bufferIndex reached => ∃ state, reached = some state ∧
      (bufferIndex < shape.nbrOfBuffers → shape.AtBuffer buffers bufferIndex state) ∧
      (bufferIndex = shape.nbrOfBuffers →
        ∀ index, state.splitData index = shape.subchunk buffers index))
    (by
      refine ⟨_, rfl, fun _ => ⟨?_, ?_, Nat.zero_le _, fun _ => rfl, fun index => ?_⟩, ?_⟩
      · simp
      · simp
      · simp
      · intro none index
        have bits_lt := shape.bits_lt_two_pow buffers
        rw [← none, zero_mul] at bits_lt
        exact (bitSlice_eq_zero (bits_lt.trans_le (Nat.pow_le_pow_right (by decide)
          (Nat.zero_le _))) _).symm)
    (by
      rintro bufferIndex _ index_lt ⟨state, rfl, at_buffer, _⟩
      rcases (at_buffer index_lt).bsLoop index_lt enough with ⟨final, runs, next, done⟩
      exact ⟨final, runs, next, done⟩)
  rcases run with ⟨final, runs, _, done⟩
  exact ⟨final, runs, done rfl⟩

section Fuel

variable {shape} {fuel more : ℕ} {buffers : ℕ → ℤ → UInt8}

theorem moveWindow_mono (fuel_le : fuel ≤ more) {state next : WindowState}
    (moves : shape.moveWindow fuel state = some next) :
    shape.moveWindow more state = some next := by
  rw [moveWindow] at moves ⊢
  split at moves
  next far => rw [if_pos far, moves]
  next near =>
    rw [if_neg near]
    exact whileLoop_mono (fun _ _ steps => steps) fuel_le moves

theorem bsLoop_mono (fuel_le : fuel ≤ more) {bufferIndex : ℕ} {state final : SplitState}
    (returns : shape.bsLoop fuel buffers bufferIndex state = some final) :
    shape.bsLoop more buffers bufferIndex state = some final := by
  rcases Option.map_eq_some_iff.mp returns with ⟨last, runs, finishes⟩
  apply Option.map_eq_some_iff.mpr
  refine ⟨last, whileLoop_mono ?_ fuel_le runs, finishes⟩
  intro current next steps
  rcases Option.bind_eq_some_iff.mp steps with ⟨filled, reads, moves⟩
  apply Option.bind_eq_some_iff.mpr
  exact ⟨filled, whileLoop_mono (fun _ _ reading => reading) fuel_le reads,
    moveWindow_mono fuel_le moves⟩

/-- More fuel does not change what the buffers are split into. -/
theorem splitBuffers_mono (fuel_le : fuel ≤ more) {final : SplitState}
    (returns : shape.splitBuffers fuel buffers = some final) :
    shape.splitBuffers more buffers = some final := by
  rw [splitBuffers] at returns ⊢
  generalize shape.nbrOfBuffers = count at returns ⊢
  induction count generalizing final with
  | zero => exact returns
  | succ count ih =>
      rcases Option.bind_eq_some_iff.mp returns with ⟨state, earlier, splits⟩
      exact Option.bind_eq_some_iff.mpr ⟨state, ih earlier, bsLoop_mono fuel_le splits⟩

/-- Whenever the buffers are split, they are split into the slices of their bit string. -/
theorem splitBuffers_data {final : SplitState}
    (returns : shape.splitBuffers fuel buffers = some final) (index : ℕ) :
    final.splitData index = shape.subchunk buffers index := by
  rcases shape.splitBuffers_eq buffers (fuel + 2 * shape.bitsPerBuffer + 66) (by omega)
    with ⟨state, runs, data⟩
  rw [splitBuffers_mono (by omega) returns] at runs
  rw [Option.some.inj runs, data]

end Fuel

end SplitShape

end Xpir
