import Mathlib.Algebra.Order.Floor.Div
import Xpir.Foundations.Loop

/-!
# Writing the chosen element

The decrypted chunks of a reply hold a group of elements one after the other. The
writer counts the bytes of the elements before the chosen one, drops the chunks
they fill, and copies the chosen element chunk by chunk, either to a file or to a
buffer. The counter keeps counting afterwards, but what it counts at that point
depends on the way the copy has ended.

A queue of chunks is the list of all chunks that are going to be pushed. Waiting
for a chunk that never comes is `none`, and so is a write outside a buffer.
-/

namespace Xpir.PIRReplyWriter

/-- A byte of the concatenated chunks. -/
def clearByte (clearChunks : List (ℕ → UInt8)) (chunkSize position : ℕ) : UInt8 :=
  clearChunks.getD (position / chunkSize) (fun _ => 0) (position % chunkSize)

theorem clearByte_of_drop {clearChunks rest : List (ℕ → UInt8)} {tmp : ℕ → UInt8}
    {chunkSize popped j : ℕ} (front : clearChunks.drop popped = tmp :: rest)
    (j_lt : j < chunkSize) : tmp j = clearByte clearChunks chunkSize (popped * chunkSize + j) := by
  have quotient : (popped * chunkSize + j) / chunkSize = popped := by
    rw [Nat.mul_comm, Nat.mul_add_div (by omega), Nat.div_eq_of_lt j_lt, Nat.add_zero]
  have remainder : (popped * chunkSize + j) % chunkSize = j := by
    rw [Nat.mul_comm, Nat.mul_add_mod, Nat.mod_eq_of_lt j_lt]
  have here : clearChunks[popped]? = some tmp := by
    rw [← Nat.add_zero popped, ← List.getElem?_drop, front, List.getElem?_cons_zero]
  rw [clearByte, quotient, remainder, List.getD_eq_getElem?_getD, here, Option.getD_some]

/-- What the bytes of the chosen element are written to. -/
structure Sink (Dest : Type) where
  openDest : Dest → Dest
  write : Dest → (ℕ → UInt8) → ℕ → Option Dest

structure WriterState (Dest : Type) where
  bytestoskip : ℕ
  clearChunks : List (ℕ → UInt8)
  dest : Dest

section Definitions

variable {Dest : Type}

/-- The loop that pops and frees chunks as long as there is more than one to skip. -/
def skipChunks (fuel chunkSize : ℕ) (state : WriterState Dest) : Option (WriterState Dest) :=
  whileLoop (fun state : WriterState Dest => chunkSize < state.bytestoskip)
    (fun state => match state.clearChunks with
      | [] => none
      | _ :: rest => some { state with
          bytestoskip := state.bytestoskip - chunkSize
          clearChunks := rest })
    fuel state

/-- A pass of the copy loop, on the number of bytes that are left and the rest of the state. -/
def copyChunk (chunkSize : ℕ) (sink : Sink Dest) (state : ℕ × WriterState Dest) :
    Option (ℕ × WriterState Dest) :=
  let leftChars := state.1
  let skip := state.2.bytestoskip
  match state.2.clearChunks with
  | [] => none
  | tmp :: rest =>
      if skip ≠ 0 then
        let writtenchars := min leftChars (chunkSize - skip)
        let bytestoskip := chunkSize - (writtenchars + skip)
        (sink.write state.2.dest (fun j => tmp (skip + j)) writtenchars).map fun dest =>
          (leftChars - writtenchars,
            { bytestoskip := bytestoskip
              clearChunks := if bytestoskip = 0 then rest else tmp :: rest
              dest := dest })
      else
        let writtenchars := min leftChars chunkSize
        let bytestoskip := if writtenchars < chunkSize then writtenchars else 0
        (sink.write state.2.dest tmp writtenchars).map fun dest =>
          (leftChars - writtenchars,
            { bytestoskip := bytestoskip
              clearChunks := if bytestoskip = 0 then rest else tmp :: rest
              dest := dest })

/-- `writeFileSecurely`, and the same code inside `extractResponse`. -/
def writeFileSecurely (fuel chunkSize maxFileSize : ℕ) (sink : Sink Dest)
    (state : WriterState Dest) : Option (WriterState Dest) :=
  (skipChunks fuel chunkSize { state with dest := sink.openDest state.dest }).bind fun state =>
    (whileLoop (fun state : ℕ × WriterState Dest => state.1 ≠ 0) (copyChunk chunkSize sink) fuel
      (maxFileSize, state)).map Prod.snd

/-- The loop over the elements of the group of the chosen one. -/
def groupLoop (fuel chosenElement alpha maxFileSize chunkSize : ℕ) (dontWrite : Bool)
    (sink : Sink Dest) (state : WriterState Dest) : Option (WriterState Dest) :=
  let firstElement := chosenElement - chosenElement % alpha
  let lastElement := (firstElement + alpha - 1) % 2 ^ 64
  countLoop (2 ^ 64) fuel firstElement lastElement
    (fun i state =>
      if i = chosenElement ∧ dontWrite = false then
        writeFileSecurely fuel chunkSize maxFileSize sink state
      else some { state with bytestoskip := (state.bytestoskip + maxFileSize) % 2 ^ 64 })
    state

end Definitions

section Response

structure Response where
  response : ℕ → UInt8
  pos_to_write : ℕ

/-- `memcpy` to the next position of a buffer. -/
def responseSink (bufferSize : ℕ) : Sink Response where
  openDest := id
  write := fun dest tmp writtenchars =>
    if dest.pos_to_write + writtenchars ≤ bufferSize then
      some
        { response := fun x =>
            if dest.pos_to_write ≤ x ∧ x < dest.pos_to_write + writtenchars then
              tmp (x - dest.pos_to_write)
            else dest.response x
          pos_to_write := dest.pos_to_write + writtenchars }
    else none

def extractResponse (fuel chosenElement maxFileSize alpha chunkSize : ℕ)
    (clearChunks : List (ℕ → UInt8)) (uninitialized : ℕ → UInt8) : Option (ℕ → UInt8) :=
  let bufferSize := (maxFileSize + 1) % 2 ^ 64
  (groupLoop fuel chosenElement alpha maxFileSize chunkSize false (responseSink bufferSize)
    { bytestoskip := 0
      clearChunks := clearChunks
      dest := { response := uninitialized, pos_to_write := 0 } }).bind fun state =>
    if chunkSize < bufferSize then some (Function.update state.dest.response chunkSize 0)
    else none

end Response

section File

/-- The sizes of the elements as the client knows them. -/
structure DESC where
  fileSize : List ℕ
  maxFileSize : ℕ
  fileSize_le : ∀ size ∈ fileSize, size ≤ maxFileSize
  maxFileSize_lt : maxFileSize < 2 ^ 64

/-- The size of a file; -1 for a file that is not in the catalog. -/
def DESC.getFileSize (catalog : DESC) (index : ℕ) : ℕ := catalog.fileSize.getD index (2 ^ 64 - 1)

/-- A file that is opened for writing loses its contents, and is then written to the end. -/
def fileSink : Sink (Option (List UInt8)) where
  openDest := fun _ => some []
  write := fun file tmp writtenchars =>
    some (file.map fun bytes => bytes ++ (List.range writtenchars).map tmp)

/-- `truncate`, which takes a signed size and fails if there is no file. -/
def truncate (file : Option (List UInt8)) (size : ℕ) : Option (List UInt8) :=
  if size < 2 ^ 63 then
    file.map fun bytes => bytes.take size ++ List.replicate (size - bytes.length) 0
  else file

/-- The chosen file, whose previous content is given, and the chunks that stay in the queue. -/
def writeAggregatedFileSecurely (fuel chosenElement alpha chunkSize : ℕ) (catalog : DESC)
    (dontWrite : Bool) (clearChunks : List (ℕ → UInt8)) (previous : Option (List UInt8)) :
    Option (WriterState (Option (List UInt8))) :=
  (groupLoop fuel chosenElement alpha catalog.maxFileSize chunkSize dontWrite fileSink
    { bytestoskip := 0, clearChunks := clearChunks, dest := previous }).bind fun state =>
    (skipChunks fuel chunkSize state).map fun state =>
      { state with dest := truncate state.dest (catalog.getFileSize chosenElement) }

end File

section Copying

variable {Dest : Type} {chunkSize : ℕ}

theorem skipChunks_eq (fuel : ℕ) (state : WriterState Dest) (size_pos : 0 < chunkSize)
    (fits : state.bytestoskip ≤ (state.clearChunks.length + 1) * chunkSize)
    (enough : state.bytestoskip < fuel) :
    skipChunks fuel chunkSize state = some { state with
      bytestoskip := state.bytestoskip - (state.bytestoskip - 1) / chunkSize * chunkSize
      clearChunks := state.clearChunks.drop ((state.bytestoskip - 1) / chunkSize) } := by
  rcases whileLoop_total (fun state : WriterState Dest => chunkSize < state.bytestoskip)
    (fun state => match state.clearChunks with
      | [] => none
      | _ :: rest => some { state with
          bytestoskip := state.bytestoskip - chunkSize
          clearChunks := rest })
    (fun reached => ∃ popped ≤ (state.bytestoskip - 1) / chunkSize, reached = { state with
      bytestoskip := state.bytestoskip - popped * chunkSize
      clearChunks := state.clearChunks.drop popped })
    WriterState.bytestoskip
    (by
      rintro _ ⟨popped, popped_le, rfl⟩ continues
      have more : chunkSize < state.bytestoskip - popped * chunkSize := of_decide_eq_true continues
      have next : popped * chunkSize + chunkSize = (popped + 1) * chunkSize :=
        (Nat.succ_mul _ _).symm
      have inside : popped < state.clearChunks.length := by
        by_contra outside
        have longer : (state.clearChunks.length + 1) * chunkSize ≤ (popped + 1) * chunkSize :=
          Nat.mul_le_mul_right _ (Nat.succ_le_succ (not_lt.mp outside))
        omega
      refine ⟨{ state with
        bytestoskip := state.bytestoskip - (popped + 1) * chunkSize
        clearChunks := state.clearChunks.drop (popped + 1) }, ?_, ⟨popped + 1, ?_, rfl⟩, ?_⟩
      · rw [List.drop_eq_getElem_cons inside, Nat.sub_sub, next]
      · rw [Nat.succ_le_iff, Nat.lt_iff_add_one_le, Nat.le_div_iff_mul_le size_pos]
        omega
      · dsimp only
        omega)
    fuel state ⟨0, Nat.zero_le _, by rw [Nat.zero_mul]; rfl⟩ enough with
    ⟨_, runs, ⟨popped, popped_le, rfl⟩, stops⟩
  have done : ¬ chunkSize < state.bytestoskip - popped * chunkSize := of_decide_eq_false stops
  have popped_eq : popped = (state.bytestoskip - 1) / chunkSize := by
    apply le_antisymm popped_le
    apply Nat.le_of_lt_succ
    rw [Nat.div_lt_iff_lt_mul size_pos, Nat.succ_mul]
    omega
  rw [skipChunks, runs, popped_eq]

variable {sink : Sink Dest} {clearChunks : List (ℕ → UInt8)} {offset maxFileSize : ℕ}
  {written : ℕ → Dest → Prop}

/-- The sink takes the bytes of the element one after the other. -/
def Stores (sink : Sink Dest) (stream : ℕ → UInt8) (maxFileSize : ℕ)
    (written : ℕ → Dest → Prop) : Prop :=
  ∀ count more dest tmp, written count dest → count + more ≤ maxFileSize →
    (∀ j < more, tmp j = stream (count + j)) →
      ∃ next, sink.write dest tmp more = some next ∧ written (count + more) next

/--
The chunks that have been popped after the copy, and the value of the counter: the
bytes used of the chunk in front if the element began before this chunk or at its
start, but the bytes that are left of it if the element began inside of it.
-/
structure Finished (clearChunks : List (ℕ → UInt8)) (chunkSize offset maxFileSize popped : ℕ)
    (state : WriterState Dest) : Prop where
  clearChunks_eq : state.clearChunks = clearChunks.drop popped
  popped_le : popped * chunkSize ≤ offset + maxFileSize
  lt_popped : offset + maxFileSize < popped * chunkSize + chunkSize
  bytestoskip_eq : state.bytestoskip =
    if offset ≤ popped * chunkSize then offset + maxFileSize - popped * chunkSize
    else popped * chunkSize + chunkSize - (offset + maxFileSize)

/-- The invariant of the copy loop. -/
structure Copying (clearChunks : List (ℕ → UInt8)) (chunkSize offset maxFileSize : ℕ)
    (written : ℕ → Dest → Prop) (state : ℕ × WriterState Dest) : Prop where
  left_le : state.1 ≤ maxFileSize
  written : written (maxFileSize - state.1) state.2.dest
  running : state.1 ≠ 0 → ∃ popped, state.2.clearChunks = clearChunks.drop popped ∧
    popped * chunkSize + state.2.bytestoskip = offset + (maxFileSize - state.1) ∧
    state.2.bytestoskip ≤ chunkSize ∧ (state.2.bytestoskip ≠ 0 → state.1 = maxFileSize)
  finished : state.1 = 0 → ∃ popped,
    Finished clearChunks chunkSize offset maxFileSize popped state.2

variable (size_pos : 0 < chunkSize)
  (fits : offset + maxFileSize ≤ clearChunks.length * chunkSize)
  (stores : Stores sink (fun j => clearByte clearChunks chunkSize (offset + j)) maxFileSize written)

include size_pos fits stores

theorem Copying.step {state : ℕ × WriterState Dest}
    (holds : Copying clearChunks chunkSize offset maxFileSize written state)
    (continues : state.1 ≠ 0) :
    ∃ next, copyChunk chunkSize sink state = some next ∧
      Copying clearChunks chunkSize offset maxFileSize written next ∧
      2 * next.1 + (if next.2.bytestoskip = 0 then 0 else 1) <
        2 * state.1 + (if state.2.bytestoskip = 0 then 0 else 1) := by
  rcases state with ⟨leftChars, skip, queue, dest⟩
  rcases holds with ⟨left_le, dest_written, running, -⟩
  replace running := running continues
  rcases running with ⟨popped, queue_eq, position, skip_le, starting⟩
  dsimp only at *
  have inside : popped < clearChunks.length := by
    by_contra outside
    have longer := Nat.mul_le_mul_right chunkSize (not_lt.mp outside)
    omega
  have next_chunk : (popped + 1) * chunkSize = popped * chunkSize + chunkSize := Nat.succ_mul _ _
  have dropped := List.drop_eq_getElem_cons inside
  have bytes : ∀ j < chunkSize,
      clearChunks[popped] j = clearByte clearChunks chunkSize (popped * chunkSize + j) :=
    fun j j_lt => clearByte_of_drop dropped j_lt
  simp only [copyChunk, queue_eq, dropped]
  by_cases aligned : skip = 0
  · -- The chunk is used from its start.
    rw [if_neg (not_not.mpr aligned)]
    rcases stores (maxFileSize - leftChars) (min leftChars chunkSize) dest clearChunks[popped]
      dest_written (by omega) (by
        intro j j_lt
        rw [bytes j (by omega)]
        congr 1
        omega) with ⟨next, writes, next_written⟩
    rw [writes, Option.map_some, if_pos aligned]
    rcases Nat.lt_or_ge leftChars chunkSize with partly | whole
    · rw [Nat.min_eq_left partly.le] at next_written ⊢
      rw [if_pos partly, if_neg continues, Nat.sub_self]
      refine ⟨_, rfl, ⟨Nat.zero_le _, ?_, fun more => absurd rfl more, fun _ => ⟨popped, ?_⟩⟩, ?_⟩
      · rw [Nat.sub_add_cancel left_le] at next_written
        exact next_written
      · refine ⟨dropped.symm, by omega, by omega, ?_⟩
        rw [if_pos (by omega)]
        dsimp only
        omega
      · dsimp only
        split <;> omega
    · rw [Nat.min_eq_right whole] at next_written ⊢
      rw [if_neg (Nat.lt_irrefl _), if_pos rfl]
      refine ⟨_, rfl, ⟨?_, ?_, fun more => ⟨popped + 1, rfl, ?_, ?_, ?_⟩,
        fun done => ⟨popped + 1, ?_⟩⟩, ?_⟩
      · dsimp only
        omega
      · have count_eq : maxFileSize - leftChars + chunkSize =
            maxFileSize - (leftChars - chunkSize) := by omega
        rw [count_eq] at next_written
        exact next_written
      · dsimp only
        omega
      · exact Nat.zero_le _
      · exact fun nonzero => absurd rfl nonzero
      · dsimp only at done
        refine ⟨rfl, by omega, by omega, ?_⟩
        rw [if_pos (by omega)]
        dsimp only
        omega
      · dsimp only
        rw [if_pos rfl]
        omega
  · -- Only the rest of the chunk is used; this is the first one.
    have first := starting aligned
    rw [if_pos aligned]
    rcases stores (maxFileSize - leftChars) (min leftChars (chunkSize - skip)) dest
      (fun j => clearChunks[popped] (skip + j)) dest_written (by omega) (by
        intro j j_lt
        rw [bytes (skip + j) (by omega)]
        congr 1
        omega) with ⟨next, writes, next_written⟩
    rw [writes, Option.map_some, if_neg aligned]
    rcases Nat.lt_or_ge leftChars (chunkSize - skip) with partly | whole
    · rw [Nat.min_eq_left partly.le] at next_written ⊢
      rw [if_neg (by omega), Nat.sub_self]
      refine ⟨_, rfl, ⟨Nat.zero_le _, ?_, fun more => absurd rfl more, fun _ => ⟨popped, ?_⟩⟩, ?_⟩
      · rw [Nat.sub_add_cancel left_le] at next_written
        exact next_written
      · refine ⟨dropped.symm, by omega, by omega, ?_⟩
        rw [if_neg (by omega)]
        dsimp only
        omega
      · dsimp only
        split <;> omega
    · rw [Nat.min_eq_right whole] at next_written ⊢
      rw [Nat.sub_add_cancel skip_le, Nat.sub_self, if_pos rfl]
      refine ⟨_, rfl, ⟨?_, ?_, fun more => ⟨popped + 1, rfl, ?_, ?_, ?_⟩,
        fun done => ⟨popped + 1, ?_⟩⟩, ?_⟩
      · dsimp only
        omega
      · have count_eq : maxFileSize - leftChars + (chunkSize - skip) =
            maxFileSize - (leftChars - (chunkSize - skip)) := by omega
        rw [count_eq] at next_written
        exact next_written
      · dsimp only
        omega
      · exact Nat.zero_le _
      · exact fun nonzero => absurd rfl nonzero
      · dsimp only at done
        refine ⟨rfl, by omega, by omega, ?_⟩
        rw [if_pos (by omega)]
        dsimp only
        omega
      · dsimp only
        rw [if_pos rfl]
        omega

/-- The element that follows the bytes to be skipped is written completely. -/
theorem writeFileSecurely_total {fuel : ℕ} {dest : Dest} (opened : written 0 (sink.openDest dest))
    (empty : maxFileSize = 0 → offset = 0) (enough : offset + 2 * maxFileSize + 1 < fuel) :
    ∃ final, writeFileSecurely fuel chunkSize maxFileSize sink ⟨offset, clearChunks, dest⟩ =
        some final ∧
      written maxFileSize final.dest ∧
      ∃ popped, Finished clearChunks chunkSize offset maxFileSize popped final := by
  have popped_le : (offset - 1) / chunkSize * chunkSize ≤ offset - 1 := Nat.div_mul_le_self _ _
  have lt_next : offset - 1 < (offset - 1) / chunkSize * chunkSize + chunkSize := by
    rw [← Nat.succ_mul]
    exact Nat.lt_mul_of_div_lt (Nat.lt_succ_self _) size_pos
  have skipped := skipChunks_eq fuel ⟨offset, clearChunks, sink.openDest dest⟩ size_pos
    (by rw [Nat.succ_mul]; dsimp only; omega) (by dsimp only; omega)
  have initial : Copying clearChunks chunkSize offset maxFileSize written (maxFileSize,
      { bytestoskip := offset - (offset - 1) / chunkSize * chunkSize
        clearChunks := clearChunks.drop ((offset - 1) / chunkSize)
        dest := sink.openDest dest }) := by
    refine ⟨le_rfl, by rwa [Nat.sub_self], fun _ => ⟨_, rfl, ?_, ?_, fun _ => rfl⟩, ?_⟩
    · dsimp only
      omega
    · dsimp only
      omega
    · intro none
      have at_start : offset = 0 := empty none
      have size_zero : maxFileSize = 0 := none
      refine ⟨0, ?_, ?_, ?_, ?_⟩ <;> simp [at_start, size_zero, size_pos]
  rcases whileLoop_total (fun state : ℕ × WriterState Dest => state.1 ≠ 0)
    (copyChunk chunkSize sink) (Copying clearChunks chunkSize offset maxFileSize written)
    (fun state => 2 * state.1 + if state.2.bytestoskip = 0 then 0 else 1)
    (fun state holds continues =>
      holds.step size_pos fits stores (of_decide_eq_true continues))
    fuel _ initial (by dsimp only; split <;> omega) with ⟨⟨left, final⟩, runs, holds, stops⟩
  have left_eq : left = 0 := not_not.mp (of_decide_eq_false stops)
  refine ⟨final, ?_, ?_, holds.finished left_eq⟩
  · rw [writeFileSecurely, skipped, Option.bind_some, runs, Option.map_some]
  · have all := holds.written
    rw [left_eq, Nat.sub_zero] at all
    exact all

end Copying

section Group

variable {Dest : Type} {fuel chosenElement alpha maxFileSize chunkSize : ℕ} {sink : Sink Dest}
  {clearChunks : List (ℕ → UInt8)} {dest : Dest} {written : ℕ → Dest → Prop}

/-- The number of bytes to skip when the chosen element is reached. -/
def skippedBytes (chosenElement alpha maxFileSize : ℕ) : ℕ :=
  chosenElement % alpha * maxFileSize % 2 ^ 64

/-- The invariant of the loop over the group; `copied` is the state right after the copy. -/
structure InGroup (chosenElement alpha maxFileSize chunkSize : ℕ)
    (clearChunks : List (ℕ → UInt8)) (dest : Dest) (written : ℕ → Dest → Prop) (i : ℕ)
    (state : WriterState Dest) : Prop where
  before : i ≤ chosenElement →
    state = ⟨(i - (chosenElement - chosenElement % alpha)) * maxFileSize % 2 ^ 64, clearChunks, dest⟩
  after : chosenElement < i → ∃ copied : WriterState Dest,
    (∃ popped, Finished clearChunks chunkSize (skippedBytes chosenElement alpha maxFileSize)
      maxFileSize popped copied) ∧
    written maxFileSize state.dest ∧ state.clearChunks = copied.clearChunks ∧
    state.bytestoskip = (copied.bytestoskip + (i - 1 - chosenElement) * maxFileSize) % 2 ^ 64

theorem Finished.bytestoskip_le {offset popped : ℕ} {state : WriterState Dest}
    (finished : Finished clearChunks chunkSize offset maxFileSize popped state) :
    state.bytestoskip ≤ chunkSize := by
  have popped_le := finished.popped_le
  have lt_popped := finished.lt_popped
  rw [finished.bytestoskip_eq]
  split <;> omega

variable (size_pos : 0 < chunkSize) (chunkSize_lt : chunkSize < 2 ^ 64)
  (fits : skippedBytes chosenElement alpha maxFileSize + maxFileSize ≤
    clearChunks.length * chunkSize)
  (stores : Stores sink (fun j => clearByte clearChunks chunkSize
    (skippedBytes chosenElement alpha maxFileSize + j)) maxFileSize written)
  (opened : written 0 (sink.openDest dest)) (enough : 2 ^ 64 + 2 * maxFileSize < fuel)

include size_pos chunkSize_lt fits stores opened enough

theorem InGroup.step {i : ℕ} {state : WriterState Dest}
    (first_le : chosenElement - chosenElement % alpha ≤ i)
    (holds : InGroup chosenElement alpha maxFileSize chunkSize clearChunks dest written i state) :
    ∃ next, (if i = chosenElement ∧ false = false then
        writeFileSecurely fuel chunkSize maxFileSize sink state
      else some { state with bytestoskip := (state.bytestoskip + maxFileSize) % 2 ^ 64 }) =
        some next ∧
      InGroup chosenElement alpha maxFileSize chunkSize clearChunks dest written (i + 1) next := by
  have place_le := Nat.mod_le chosenElement alpha
  rcases Nat.lt_trichotomy i chosenElement with early | rfl | late
  · refine ⟨_, if_neg (by omega), fun _ => ?_, fun late => by omega⟩
    have next : (i + 1 - (chosenElement - chosenElement % alpha)) * maxFileSize =
        (i - (chosenElement - chosenElement % alpha)) * maxFileSize + maxFileSize := by
      rw [Nat.sub_add_comm first_le, Nat.succ_mul]
    rw [holds.before early.le, next, Nat.mod_add_mod]
  · have offset_lt : skippedBytes i alpha maxFileSize < 2 ^ 64 := Nat.mod_lt _ (Nat.two_pow_pos 64)
    have reached : state = ⟨skippedBytes i alpha maxFileSize, clearChunks, dest⟩ := by
      rw [holds.before le_rfl, Nat.sub_sub_self place_le, skippedBytes]
    rcases writeFileSecurely_total size_pos fits stores opened
      (by
        intro empty
        rw [skippedBytes, empty, Nat.mul_zero, Nat.zero_mod])
      (by omega : skippedBytes i alpha maxFileSize + 2 * maxFileSize + 1 < fuel) with
      ⟨final, writes, all, popped, finished⟩
    rw [reached, if_pos ⟨rfl, rfl⟩]
    refine ⟨final, writes, fun early => absurd early (by omega), fun _ =>
      ⟨final, ⟨popped, finished⟩, all, rfl, ?_⟩⟩
    rw [Nat.add_sub_cancel, Nat.sub_self, Nat.zero_mul, Nat.add_zero,
      Nat.mod_eq_of_lt (finished.bytestoskip_le.trans_lt chunkSize_lt)]
  · rcases holds.after late with ⟨copied, finished, all, queue_eq, skip_eq⟩
    refine ⟨_, if_neg (by omega), fun early => by omega, fun _ =>
      ⟨copied, finished, all, queue_eq, ?_⟩⟩
    have next : (i + 1 - 1 - chosenElement) * maxFileSize =
        (i - 1 - chosenElement) * maxFileSize + maxFileSize := by
      rw [← Nat.succ_mul]
      congr 1
      omega
    dsimp only
    rw [skip_eq, next, Nat.mod_add_mod, Nat.add_assoc]

/--
The result for a group: the chosen element has been written, and the counter has
gone on from the value the copy has left.
-/
theorem groupLoop_total (alpha_pos : 0 < alpha)
    (straight : chosenElement - chosenElement % alpha + alpha < 2 ^ 64) :
    ∃ final copied : WriterState Dest,
      groupLoop fuel chosenElement alpha maxFileSize chunkSize false sink ⟨0, clearChunks, dest⟩ =
        some final ∧
      (∃ popped, Finished clearChunks chunkSize (skippedBytes chosenElement alpha maxFileSize)
        maxFileSize popped copied) ∧
      written maxFileSize final.dest ∧ final.clearChunks = copied.clearChunks ∧
      final.bytestoskip =
        (copied.bytestoskip + (alpha - 1 - chosenElement % alpha) * maxFileSize) % 2 ^ 64 := by
  have place_lt := Nat.mod_lt chosenElement alpha_pos
  have place_le := Nat.mod_le chosenElement alpha
  have last_eq : (chosenElement - chosenElement % alpha + alpha - 1) % 2 ^ 64 =
      chosenElement - chosenElement % alpha + alpha - 1 := Nat.mod_eq_of_lt (by omega)
  have initial : InGroup chosenElement alpha maxFileSize chunkSize clearChunks dest written
      (chosenElement - chosenElement % alpha) ⟨0, clearChunks, dest⟩ := by
    refine ⟨fun _ => ?_, fun late => by omega⟩
    rw [Nat.sub_self, Nat.zero_mul, Nat.zero_mod]
  rcases countLoop_total (2 ^ 64) fuel _ _ _ _
    (InGroup chosenElement alpha maxFileSize chunkSize clearChunks dest written) initial
    (by omega : _ ≤ chosenElement - chosenElement % alpha + alpha - 1 + 1)
    (fun i state first_le _ holds =>
      holds.step size_pos chunkSize_lt fits stores opened enough first_le)
    (by omega) (by omega) with ⟨final, runs, holds⟩
  rcases holds.after (by omega) with ⟨copied, finished, all, queue_eq, skip_eq⟩
  refine ⟨final, copied, ?_, finished, all, queue_eq, ?_⟩
  · rw [groupLoop, last_eq]
    exact runs
  · rw [skip_eq]
    congr 3
    omega

end Group

/-- If the last element of the group is out of the range of the counter, nothing is written. -/
theorem groupLoop_of_wraps {Dest : Type} {fuel chosenElement alpha maxFileSize chunkSize : ℕ}
    {dontWrite : Bool} {sink : Sink Dest} {state final : WriterState Dest}
    (chosen_lt : chosenElement < 2 ^ 64) (alpha_lt : alpha < 2 ^ 64)
    (wraps : 2 ^ 64 ≤ chosenElement - chosenElement % alpha + alpha)
    (returns : groupLoop fuel chosenElement alpha maxFileSize chunkSize dontWrite sink state =
      some final) : final = state := by
  have first_le : chosenElement - chosenElement % alpha ≤ chosenElement := Nat.sub_le _ _
  rcases Nat.eq_or_lt_of_le wraps with largest | beyond
  · rw [groupLoop, countLoop_eq_none (by omega) (by omega)] at returns
    exact absurd returns (by simp)
  · rw [groupLoop] at returns
    exact countLoop_of_lt (by omega) returns

end Xpir.PIRReplyWriter
