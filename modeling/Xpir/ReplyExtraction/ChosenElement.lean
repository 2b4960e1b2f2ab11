import Xpir.ReplyExtraction.PIRReplyWriter

/-!
# The chosen element as it is returned and as it is written

`extractResponse` returns the slice of the chosen element, unless the terminating
zero, which it writes at the index given by the size of a chunk, falls into the slice
or outside the buffer. `writeAggregatedFileSecurely` writes the slice, but the loop
that is to empty the queue afterwards stops one chunk early in most cases.
-/

namespace Xpir.PIRReplyWriter

section Response

variable {chosenElement maxFileSize alpha chunkSize : ℕ} {clearChunks : List (ℕ → UInt8)}

theorem responseSink_stores {bufferSize : ℕ} (stream : ℕ → UInt8)
    (size_le : maxFileSize ≤ bufferSize) :
    Stores (responseSink bufferSize) stream maxFileSize fun count dest =>
      dest.pos_to_write = count ∧ ∀ j < count, dest.response j = stream j := by
  rintro count more dest tmp ⟨rfl, stored⟩ inside bytes
  refine ⟨_, if_pos (inside.trans size_le), rfl, ?_⟩
  intro j j_lt
  dsimp only
  split
  next here =>
    rw [bytes _ (by omega), Nat.add_sub_cancel' here.1]
  next elsewhere => exact stored j (by omega)

/-- The bytes of the chosen element are returned, whatever the new buffer contains. -/
def ExtractsSlice (chosenElement maxFileSize alpha chunkSize : ℕ)
    (clearChunks : List (ℕ → UInt8)) : Prop :=
  ∀ uninitialized, ∃ enough, ∀ fuel, enough ≤ fuel → ∃ response,
    extractResponse fuel chosenElement maxFileSize alpha chunkSize clearChunks uninitialized =
      some response ∧
    ∀ j < maxFileSize, response j =
      clearByte clearChunks chunkSize (chosenElement % alpha * maxFileSize + j)

/-- The buffer before the terminator is written. -/
theorem extractResponse_eq (alpha_pos : 0 < alpha) (size_pos : 0 < chunkSize)
    (chunkSize_lt : chunkSize < 2 ^ 64) (maxFileSize_lt : maxFileSize + 1 < 2 ^ 64)
    (straight : chosenElement - chosenElement % alpha + alpha < 2 ^ 64)
    (received : alpha * maxFileSize ⌈/⌉ chunkSize ≤ clearChunks.length)
    (uninitialized : ℕ → UInt8) {fuel : ℕ} (enough : 2 ^ 64 + 2 * maxFileSize < fuel) :
    ∃ response : ℕ → UInt8, (∀ j < maxFileSize, response j = clearByte clearChunks chunkSize
        (skippedBytes chosenElement alpha maxFileSize + j)) ∧
      extractResponse fuel chosenElement maxFileSize alpha chunkSize clearChunks uninitialized =
        if chunkSize ≤ maxFileSize then some (Function.update response chunkSize 0) else none := by
  have total : alpha * maxFileSize ≤ chunkSize * clearChunks.length :=
    (ceilDiv_le_iff_le_mul size_pos).mp received
  have place_lt := Nat.mod_lt chosenElement alpha_pos
  have skipped_le : skippedBytes chosenElement alpha maxFileSize ≤
      chosenElement % alpha * maxFileSize := Nat.mod_le _ _
  have until_end : chosenElement % alpha * maxFileSize + maxFileSize ≤ alpha * maxFileSize := by
    rw [← Nat.succ_mul]
    exact Nat.mul_le_mul_right _ place_lt
  have size_eq : (maxFileSize + 1) % 2 ^ 64 = maxFileSize + 1 := Nat.mod_eq_of_lt maxFileSize_lt
  rcases groupLoop_total size_pos chunkSize_lt (by rw [Nat.mul_comm clearChunks.length]; omega)
    (responseSink_stores _ (Nat.le_succ maxFileSize))
    (⟨rfl, fun j j_lt => absurd j_lt (Nat.not_lt_zero j)⟩ :
      ((responseSink (maxFileSize + 1)).openDest ⟨uninitialized, 0⟩).pos_to_write = 0 ∧ _)
    enough alpha_pos straight with ⟨final, copied, runs, _, ⟨_, stored⟩, _, _⟩
  refine ⟨final.dest.response, stored, ?_⟩
  rw [extractResponse, size_eq, runs, Option.bind_some]
  simp only [Nat.lt_succ_iff]

/--
The slice is returned exactly if no 64-bit counter wraps around (the skipped bytes may, if
the content does not show it) and the terminator, whose index is the size of a chunk,
is written to the end of the buffer or over a byte that is zero.
-/
theorem extractsSlice_iff (alpha_pos : 0 < alpha) (alpha_lt : alpha < 2 ^ 64)
    (chosen_lt : chosenElement < 2 ^ 64) (maxFileSize_pos : 0 < maxFileSize)
    (maxFileSize_lt : maxFileSize < 2 ^ 64) (size_pos : 0 < chunkSize)
    (chunkSize_lt : chunkSize < 2 ^ 64)
    (received : alpha * maxFileSize ⌈/⌉ chunkSize ≤ clearChunks.length) :
    ExtractsSlice chosenElement maxFileSize alpha chunkSize clearChunks ↔
      chosenElement - chosenElement % alpha + alpha < 2 ^ 64 ∧ maxFileSize + 1 < 2 ^ 64 ∧
      chunkSize ≤ maxFileSize ∧
      (chunkSize < maxFileSize → clearByte clearChunks chunkSize
        (chosenElement % alpha * maxFileSize + chunkSize) = 0) ∧
      ∀ j < maxFileSize, j ≠ chunkSize →
        clearByte clearChunks chunkSize (skippedBytes chosenElement alpha maxFileSize + j) =
          clearByte clearChunks chunkSize (chosenElement % alpha * maxFileSize + j) := by
  constructor
  · intro exact
    have straight : chosenElement - chosenElement % alpha + alpha < 2 ^ 64 := by
      by_contra wraps
      rcases exact (fun _ => clearByte clearChunks chunkSize
        (chosenElement % alpha * maxFileSize + 0) + 1) with ⟨enough, returned⟩
      rcases returned enough le_rfl with ⟨response, returns, bytes⟩
      rcases Option.bind_eq_some_iff.mp returns with ⟨state, runs, ends⟩
      rw [groupLoop_of_wraps chosen_lt alpha_lt (not_lt.mp wraps) runs] at ends
      have first := bytes 0 maxFileSize_pos
      split at ends
      · rw [← Option.some.inj ends, Function.update_of_ne size_pos.ne] at first
        simp at first
      · exact absurd ends (by simp)
    rcases exact (fun _ => 0) with ⟨enough, returned⟩
    rcases returned (max enough (2 ^ 64 + 2 * maxFileSize + 1)) (le_max_left _ _) with
      ⟨response, returns, bytes⟩
    have buffer_lt : maxFileSize + 1 < 2 ^ 64 := by
      by_contra exceeds
      rcases Option.bind_eq_some_iff.mp returns with ⟨state, _, ends⟩
      have empty : (maxFileSize + 1) % 2 ^ 64 = 0 := by
        rw [show maxFileSize + 1 = 2 ^ 64 by omega, Nat.mod_self]
      rw [empty, if_neg (Nat.not_lt_zero _)] at ends
      exact absurd ends (by simp)
    rcases extractResponse_eq alpha_pos size_pos chunkSize_lt buffer_lt straight received
      (fun _ => 0) (Nat.lt_of_succ_le (le_max_right enough _)) with ⟨stored, slice, result⟩
    rw [result] at returns
    have terminator_le : chunkSize ≤ maxFileSize := by
      by_contra outside
      rw [if_neg outside] at returns
      exact absurd returns (by simp)
    rw [if_pos terminator_le] at returns
    rw [← Option.some.inj returns] at bytes
    refine ⟨straight, buffer_lt, terminator_le, ?_, ?_⟩
    · intro inside
      rw [← bytes chunkSize inside, Function.update_self]
    · intro j j_lt away
      rw [← slice j j_lt, ← bytes j j_lt, Function.update_of_ne away]
  · rintro ⟨straight, buffer_lt, terminator_le, zero, same⟩ uninitialized
    refine ⟨2 ^ 64 + 2 * maxFileSize + 1, fun fuel enough => ?_⟩
    rcases extractResponse_eq alpha_pos size_pos chunkSize_lt buffer_lt straight received
      uninitialized (Nat.lt_of_succ_le enough) with ⟨stored, slice, result⟩
    refine ⟨_, result.trans (if_pos terminator_le), ?_⟩
    intro j j_lt
    by_cases here : j = chunkSize
    · rw [here, Function.update_self, zero (here ▸ j_lt)]
    · rw [Function.update_of_ne here, slice j j_lt, same j j_lt here]

/-- The second of two elements of four bytes, in two chunks of four bytes. -/
theorem extractsSlice_iff_second :
    ExtractsSlice 1 4 2 4 [fun j => UInt8.ofNat j, fun j => UInt8.ofNat (j + 4)] := by
  refine (extractsSlice_iff (by decide) (by decide) (by decide) (by decide) (by decide) (by decide)
    (by decide) (by decide)).mpr ⟨by decide, by decide, by decide, by decide, by decide⟩

/-- Four bytes in two chunks of two bytes: the third byte is overwritten by the terminator. -/
theorem not_extractsSlice_twoChunks : ¬ ExtractsSlice 0 4 1 2 [fun _ => 1, fun _ => 1] := by
  intro exact
  rcases exact (fun _ => 0) with ⟨enough, returned⟩
  rcases extractResponse_eq (by decide : 0 < 1) (by decide : 0 < 2) (by decide) (by decide)
    (by decide : 0 - 0 % 1 + 1 < 2 ^ 64)
    (by decide : 1 * 4 ⌈/⌉ 2 ≤ [fun _ : ℕ => (1 : UInt8), fun _ => 1].length) (fun _ => 0)
    (Nat.lt_of_succ_le (le_max_right enough (2 ^ 64 + 2 * 4 + 1))) with ⟨stored, _, result⟩
  rcases returned _ (le_max_left enough (2 ^ 64 + 2 * 4 + 1)) with ⟨response, returns, bytes⟩
  rw [result, if_pos (by decide)] at returns
  have third := bytes 2 (by decide)
  rw [← Option.some.inj returns, Function.update_self] at third
  exact absurd third (by decide)

end Response

section File

variable {chosenElement alpha chunkSize : ℕ} {catalog : DESC} {clearChunks : List (ℕ → UInt8)}

theorem fileSink_stores (stream : ℕ → UInt8) (maxFileSize : ℕ) :
    Stores fileSink stream maxFileSize fun count file =>
      file = some ((List.range count).map stream) := by
  rintro count more _ tmp rfl _ bytes
  refine ⟨_, rfl, ?_⟩
  beta_reduce
  rw [Option.map_some, List.range_add, List.map_append, List.map_map]
  congr 2
  apply List.map_congr_left
  intro j j_mem
  exact bytes j (List.mem_range.mp j_mem)

/-- The chosen file is written, whatever it contained before, and no chunk stays in the queue. -/
def WritesChosen (chosenElement alpha chunkSize : ℕ) (catalog : DESC) (dontWrite : Bool)
    (clearChunks : List (ℕ → UInt8)) : Prop :=
  ∀ previous, ∃ enough, ∀ fuel, enough ≤ fuel → ∃ final,
    writeAggregatedFileSecurely fuel chosenElement alpha chunkSize catalog dontWrite clearChunks
      previous = some final ∧
    final.dest = some ((List.range (catalog.getFileSize chosenElement)).map fun j =>
      clearByte clearChunks chunkSize (chosenElement % alpha * catalog.maxFileSize + j)) ∧
    final.clearChunks = []

/--
The last loop pops the chunks that remain, if the chosen element has so many bytes
before it in its group, and so many after it. Either none remains, or the element
lies strictly inside one chunk, and the bytes after it need as many chunks counted
from the end of the element forwards as counted backwards.
-/
def Drains (before maxFileSize rest chunkSize : ℕ) : Prop :=
  before < 2 ^ 64 ∧
    ((rest = 0 ∧ chunkSize ∣ before + maxFileSize) ∨
      (before % chunkSize ≠ 0 ∧ before % chunkSize + maxFileSize < chunkSize ∧
        before % chunkSize + maxFileSize ≤ rest ∧
        chunkSize - (before % chunkSize + maxFileSize) + rest < 2 ^ 64 ∧
        (rest - (before % chunkSize + maxFileSize)) ⌈/⌉ chunkSize =
          (rest + (before % chunkSize + maxFileSize)) ⌈/⌉ chunkSize))

/-- The number of chunks that are popped, after the copy and all together. -/
theorem drained_iff {before maxFileSize rest popped chunks copied : ℕ} (size_pos : 0 < chunkSize)
    (chunkSize_lt : chunkSize < 2 ^ 64)
    (received : ∀ count, chunks ≤ count ↔ before + maxFileSize + rest ≤ count * chunkSize)
    (popped_le : popped * chunkSize ≤ before % 2 ^ 64 + maxFileSize)
    (lt_popped : before % 2 ^ 64 + maxFileSize < popped * chunkSize + chunkSize)
    (copied_eq : copied = if before % 2 ^ 64 ≤ popped * chunkSize then
        before % 2 ^ 64 + maxFileSize - popped * chunkSize
      else popped * chunkSize + chunkSize - (before % 2 ^ 64 + maxFileSize)) :
    chunks ≤ popped + ((copied + rest) % 2 ^ 64 - 1) / chunkSize ↔
      Drains before maxFileSize rest chunkSize := by
  have skip_lt : (copied + rest) % 2 ^ 64 < 2 ^ 64 := Nat.mod_lt _ (Nat.two_pow_pos 64)
  have skip_le : (copied + rest) % 2 ^ 64 ≤ copied + rest := Nat.mod_le _ _
  have drained_le := Nat.div_mul_le_self ((copied + rest) % 2 ^ 64 - 1) chunkSize
  have lt_drained : (copied + rest) % 2 ^ 64 - 1 <
      ((copied + rest) % 2 ^ 64 - 1) / chunkSize * chunkSize + chunkSize := by
    rw [← Nat.succ_mul]
    exact Nat.lt_mul_of_div_lt (Nat.lt_succ_self _) size_pos
  have split_before := Nat.div_add_mod' before chunkSize
  rw [received, Nat.add_mul]
  constructor
  · intro drained
    have before_lt : before < 2 ^ 64 := by
      by_contra exceeds
      split at copied_eq <;> omega
    rw [Nat.mod_eq_of_lt before_lt] at popped_le lt_popped copied_eq
    refine ⟨before_lt, ?_⟩
    rcases Nat.lt_or_ge (popped * chunkSize) before with inside | aligned
    · right
      rw [if_neg (not_le.mpr inside)] at copied_eq
      have place : before % chunkSize = before - popped * chunkSize := by
        have quotient : before / chunkSize = popped :=
          Nat.div_eq_of_lt_le inside.le (by rw [Nat.succ_mul]; omega)
        rw [quotient] at split_before
        omega
      have straight : copied + rest < 2 ^ 64 := by
        by_contra exceeds
        omega
      rw [Nat.mod_eq_of_lt straight] at *
      have one_drained : chunkSize ≤ (copied + rest - 1) / chunkSize * chunkSize := by
        apply Nat.le_mul_of_pos_left
        apply Nat.pos_of_ne_zero
        intro none
        rw [none] at drained
        omega
      rw [place]
      refine ⟨by omega, by omega, by omega, by omega, le_antisymm ?_ ?_⟩
      · rw [ceilDiv_le_iff_le_mul size_pos]
        have above := le_smul_ceilDiv size_pos (b := rest + (before - popped * chunkSize + maxFileSize))
        rw [smul_eq_mul] at above
        omega
      · have backwards : (rest - (before - popped * chunkSize + maxFileSize)) ⌈/⌉ chunkSize =
            (copied + rest - 1) / chunkSize := by
          rw [Nat.ceilDiv_eq_add_pred_div]
          congr 1
          omega
        rw [backwards, ceilDiv_le_iff_le_mul size_pos, Nat.mul_comm chunkSize]
        omega
    · left
      rw [if_pos aligned] at copied_eq
      have nothing_left : (copied + rest) % 2 ^ 64 = 0 := by
        by_contra some_left
        omega
      rw [nothing_left, Nat.zero_sub, Nat.zero_div, Nat.zero_mul] at drained
      exact ⟨by omega, Dvd.intro_left popped (by omega)⟩
  · rintro ⟨before_lt, choice⟩
    rw [Nat.mod_eq_of_lt before_lt] at popped_le lt_popped copied_eq
    have popped_eq : (before + maxFileSize) / chunkSize = popped :=
      Nat.div_eq_of_lt_le popped_le (by rw [Nat.succ_mul]; exact lt_popped)
    rcases choice with ⟨rest_zero, aligned⟩ | ⟨inside, ends_lt, ends_le, straight, same⟩
    · have whole := Nat.div_mul_cancel aligned
      rw [popped_eq] at whole
      omega
    · have quotient : (before + maxFileSize) / chunkSize = before / chunkSize :=
        Nat.div_eq_of_lt_le (by omega) (by rw [Nat.succ_mul]; omega)
      rw [← quotient, popped_eq] at split_before
      rw [if_neg (by omega)] at copied_eq
      have skip_eq : (copied + rest) % 2 ^ 64 = copied + rest := Nat.mod_eq_of_lt (by omega)
      have backwards : (rest - (before % chunkSize + maxFileSize)) ⌈/⌉ chunkSize =
          ((copied + rest) % 2 ^ 64 - 1) / chunkSize := by
        rw [Nat.ceilDiv_eq_add_pred_div, skip_eq]
        congr 1
        omega
      have above := (ceilDiv_le_iff_le_mul size_pos).mp (backwards.symm.trans same).ge
      rw [Nat.mul_comm chunkSize] at above
      omega

theorem skipChunks_dest {Dest : Type} {fuel : ℕ} {state final : WriterState Dest}
    (returns : skipChunks fuel chunkSize state = some final) : final.dest = state.dest := by
  refine whileLoop_invariant (fun reached => reached.dest = state.dest) ?_ rfl returns
  intro current next same _ steps
  split at steps
  · exact absurd steps (by simp)
  · rw [← Option.some.inj steps]
    exact same

theorem groupLoop_dontWrite {Dest : Type} {fuel maxFileSize : ℕ} {sink : Sink Dest}
    {state final : WriterState Dest}
    (returns : groupLoop fuel chosenElement alpha maxFileSize chunkSize true sink state =
      some final) : final.dest = state.dest := by
  rw [groupLoop] at returns
  refine countLoop_invariant (fun reached : WriterState Dest => reached.dest = state.dest) ?_ rfl
    returns
  intro i current next same steps
  rw [if_neg (by simp)] at steps
  rw [← Option.some.inj steps]
  exact same

/-- A file that does not exist before does not exist afterwards if nothing is written. -/
theorem not_writesChosen {dontWrite : Bool}
    (unwritten : ∀ fuel state, groupLoop fuel chosenElement alpha catalog.maxFileSize chunkSize
      dontWrite fileSink ⟨0, clearChunks, none⟩ = some state → state.dest = none) :
    ¬ WritesChosen chosenElement alpha chunkSize catalog dontWrite clearChunks := by
  intro exact
  rcases exact none with ⟨enough, returned⟩
  rcases returned enough le_rfl with ⟨final, returns, file, _⟩
  rcases Option.bind_eq_some_iff.mp returns with ⟨state, runs, drains⟩
  rcases Option.map_eq_some_iff.mp drains with ⟨drained, skips, rfl⟩
  dsimp only at file
  rw [skipChunks_dest skips, unwritten enough state runs, truncate] at file
  split at file <;> simp at file

theorem truncate_eq {stream : ℕ → UInt8} {maxFileSize size : ℕ} (size_le : size ≤ maxFileSize) :
    truncate (some ((List.range maxFileSize).map stream)) size =
      some ((List.range (if size < 2 ^ 63 then size else maxFileSize)).map stream) := by
  rw [truncate]
  split
  next =>
    rw [Option.map_some, ← List.map_take, List.take_range, Nat.min_eq_left size_le,
      List.length_map, List.length_range, Nat.sub_eq_zero_of_le size_le, List.replicate_zero,
      List.append_nil]
  next => rfl

/-- The file and the queue, if the chosen element is written. -/
theorem writeAggregatedFileSecurely_eq (alpha_pos : 0 < alpha) (size_pos : 0 < chunkSize)
    (chunkSize_lt : chunkSize < 2 ^ 64)
    (straight : chosenElement - chosenElement % alpha + alpha < 2 ^ 64)
    (received : clearChunks.length = alpha * catalog.maxFileSize ⌈/⌉ chunkSize)
    (previous : Option (List UInt8)) {fuel : ℕ}
    (enough : 2 ^ 64 + 2 * catalog.maxFileSize < fuel) :
    ∃ final : WriterState (Option (List UInt8)),
      writeAggregatedFileSecurely fuel chosenElement alpha chunkSize catalog false clearChunks
        previous = some final ∧
      final.dest = truncate (some ((List.range catalog.maxFileSize).map fun j =>
        clearByte clearChunks chunkSize
          (skippedBytes chosenElement alpha catalog.maxFileSize + j)))
        (catalog.getFileSize chosenElement) ∧
      (final.clearChunks = [] ↔ Drains (chosenElement % alpha * catalog.maxFileSize)
        catalog.maxFileSize ((alpha - 1 - chosenElement % alpha) * catalog.maxFileSize)
          chunkSize) := by
  have place_lt := Nat.mod_lt chosenElement alpha_pos
  have skipped_le : skippedBytes chosenElement alpha catalog.maxFileSize ≤
      chosenElement % alpha * catalog.maxFileSize := Nat.mod_le _ _
  have total : alpha * catalog.maxFileSize = chosenElement % alpha * catalog.maxFileSize +
      catalog.maxFileSize + (alpha - 1 - chosenElement % alpha) * catalog.maxFileSize := by
    rw [← Nat.succ_mul, ← Nat.add_mul]
    congr 1
    omega
  have chunks_le : ∀ count, clearChunks.length ≤ count ↔
      chosenElement % alpha * catalog.maxFileSize + catalog.maxFileSize +
        (alpha - 1 - chosenElement % alpha) * catalog.maxFileSize ≤ count * chunkSize := by
    intro count
    rw [received, ceilDiv_le_iff_le_mul size_pos, total, Nat.mul_comm chunkSize]
  have all_chunks := (chunks_le _).mp le_rfl
  have fits : skippedBytes chosenElement alpha catalog.maxFileSize + catalog.maxFileSize ≤
      clearChunks.length * chunkSize := by omega
  rcases groupLoop_total size_pos chunkSize_lt fits (fileSink_stores _ _)
    (by rfl : fileSink.openDest previous = some ((List.range 0).map _)) enough alpha_pos
    straight with ⟨state, copied, runs, ⟨popped, finished⟩, file, queue_eq, skip_eq⟩
  have popped_le := finished.popped_le
  have lt_popped := finished.lt_popped
  have copied_eq := finished.bytestoskip_eq
  have skip_lt : state.bytestoskip < 2 ^ 64 := by
    rw [skip_eq]
    exact Nat.mod_lt _ (Nat.two_pow_pos 64)
  have queue_length : state.clearChunks.length = clearChunks.length - popped := by
    rw [queue_eq, finished.clearChunks_eq, List.length_drop]
  have skipped := skipChunks_eq fuel state size_pos
    (by
      have skip_le := Nat.mod_le (copied.bytestoskip +
        (alpha - 1 - chosenElement % alpha) * catalog.maxFileSize) (2 ^ 64)
      rw [← skip_eq] at skip_le
      rw [queue_length, Nat.succ_mul, Nat.sub_mul]
      split at copied_eq <;> omega)
    (by omega)
  have result : writeAggregatedFileSecurely fuel chosenElement alpha chunkSize catalog false
      clearChunks previous = some
        { bytestoskip := state.bytestoskip - (state.bytestoskip - 1) / chunkSize * chunkSize
          clearChunks := state.clearChunks.drop ((state.bytestoskip - 1) / chunkSize)
          dest := truncate state.dest (catalog.getFileSize chosenElement) } := by
    rw [writeAggregatedFileSecurely, runs, Option.bind_some, skipped, Option.map_some]
  refine ⟨_, result, ?_, ?_⟩
  · dsimp only
    rw [file]
  · have drained := drained_iff size_pos chunkSize_lt chunks_le popped_le lt_popped copied_eq
    dsimp only
    rw [List.drop_eq_nil_iff, queue_length, skip_eq, Nat.sub_le_iff_le_add']
    exact drained

/--
The chosen file is written and the queue is drained exactly if writing is not
switched off, the number of the last element of the group fits the counter, the size of
the file is one that `truncate` takes, and the last loop pops what the copy leaves.
-/
theorem writesChosen_iff {dontWrite : Bool} (alpha_pos : 0 < alpha) (alpha_lt : alpha < 2 ^ 64)
    (chosen_lt : chosenElement < 2 ^ 64) (size_pos : 0 < chunkSize)
    (chunkSize_lt : chunkSize < 2 ^ 64) (inside : chosenElement < catalog.fileSize.length)
    (received : clearChunks.length = alpha * catalog.maxFileSize ⌈/⌉ chunkSize) :
    WritesChosen chosenElement alpha chunkSize catalog dontWrite clearChunks ↔
      dontWrite = false ∧ chosenElement - chosenElement % alpha + alpha < 2 ^ 64 ∧
      (catalog.getFileSize chosenElement < 2 ^ 63 ∨
        catalog.getFileSize chosenElement = catalog.maxFileSize) ∧
      Drains (chosenElement % alpha * catalog.maxFileSize) catalog.maxFileSize
        ((alpha - 1 - chosenElement % alpha) * catalog.maxFileSize) chunkSize := by
  have size_le : catalog.getFileSize chosenElement ≤ catalog.maxFileSize := by
    rw [DESC.getFileSize, List.getD_eq_getElem?_getD, List.getElem?_eq_getElem inside,
      Option.getD_some]
    exact catalog.fileSize_le _ (List.getElem_mem inside)
  constructor
  · intro exact
    have writing : dontWrite = false := by
      by_contra off
      rw [Bool.not_eq_false] at off
      rw [off] at exact
      exact not_writesChosen (fun fuel state runs => groupLoop_dontWrite runs) exact
    rw [writing] at exact
    have straight : chosenElement - chosenElement % alpha + alpha < 2 ^ 64 := by
      by_contra wraps
      apply not_writesChosen _ exact
      intro fuel state runs
      rw [groupLoop_of_wraps chosen_lt alpha_lt (not_lt.mp wraps) runs]
    rcases exact none with ⟨enough, returned⟩
    rcases returned (max enough (2 ^ 64 + 2 * catalog.maxFileSize + 1)) (le_max_left _ _) with
      ⟨final, returns, file, drained⟩
    rcases writeAggregatedFileSecurely_eq alpha_pos size_pos chunkSize_lt straight received none
      (Nat.lt_of_succ_le (le_max_right enough _)) with ⟨reached, result, contents, queue⟩
    rw [returns] at result
    rw [← Option.some.inj result] at contents queue
    refine ⟨writing, straight, ?_, queue.mp drained⟩
    rw [file, truncate_eq size_le] at contents
    have lengths := congrArg List.length (Option.some.inj contents)
    rw [List.length_map, List.length_map, List.length_range, List.length_range] at lengths
    split at lengths
    next small => exact Or.inl small
    next => exact Or.inr lengths
  · rintro ⟨rfl, straight, size_fits, drains⟩ previous
    refine ⟨2 ^ 64 + 2 * catalog.maxFileSize + 1, fun fuel enough => ?_⟩
    rcases writeAggregatedFileSecurely_eq alpha_pos size_pos chunkSize_lt straight received
      previous (Nat.lt_of_succ_le enough) with ⟨final, result, contents, queue⟩
    refine ⟨final, result, ?_, queue.mpr drains⟩
    have size_eq : (if catalog.getFileSize chosenElement < 2 ^ 63 then
        catalog.getFileSize chosenElement else catalog.maxFileSize) =
          catalog.getFileSize chosenElement := by
      split <;> omega
    rw [contents, truncate_eq size_le, size_eq, skippedBytes, Nat.mod_eq_of_lt drains.1]

/-- Two files of two bytes, in one chunk each: the second is written and nothing stays. -/
theorem writesChosen_iff_second :
    WritesChosen 1 2 2 ⟨[2, 2], 2, by decide, by decide⟩ false
      [fun j => UInt8.ofNat j, fun j => UInt8.ofNat (j + 2)] := by
  refine (writesChosen_iff (by decide) (by decide) (by decide) (by decide) (by decide) (by decide)
    (by decide)).mpr ⟨rfl, by decide, by decide, by decide, Or.inl ⟨rfl, by decide⟩⟩

/-- A file of one byte in a chunk of two bytes: the chunk stays in the queue. -/
theorem not_writesChosen_oneByte :
    let catalog : DESC := ⟨[1], 1, by decide, by decide⟩
    ¬ WritesChosen 0 1 2 catalog false [fun _ => 7] := by
  intro catalog exact
  have received : [fun _ : ℕ => (7 : UInt8)].length = 1 * catalog.maxFileSize ⌈/⌉ 2 := by
    change 1 = 1 * 1 ⌈/⌉ 2
    decide
  rcases exact none with ⟨enough, returned⟩
  rcases returned (max enough (2 ^ 64 + 2 * 1 + 1)) (le_max_left _ _) with
    ⟨final, returns, _, drained⟩
  rcases writeAggregatedFileSecurely_eq (by decide : 0 < 1) (by decide : 0 < 2) (by decide)
    (by decide : 0 - 0 % 1 + 1 < 2 ^ 64)
    received none
    (Nat.lt_of_succ_le (le_max_right enough (2 ^ 64 + 2 * 1 + 1))) with
    ⟨reached, result, _, queue⟩
  rw [returns] at result
  rw [← Option.some.inj result] at queue
  rcases (queue.mp drained).2 with ⟨_, aligned⟩ | ⟨inside, _⟩
  · exact absurd aligned (by decide)
  · exact inside rfl

end File

end Xpir.PIRReplyWriter
