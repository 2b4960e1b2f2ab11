import Xpir.ReplyGenerator.ReplySize

/-!
# Reply extraction

The client decrypts a reply from the last level down to the first. The plaintexts of
a level are written one after the other to a buffer, from which the ciphertexts of the
level below are read. The plaintexts of the first level are the chunks of the chosen
element, and go to a queue.

The number of ciphertexts is computed anew at each level, and the offsets into the
buffers are `unsigned int`. If these numbers are right and the offsets do not wrap
around, the chunks are those of the chosen element.
-/

namespace Xpir

/-- The bytes that have been allocated for the plaintexts of a level. -/
structure Allocation where
  size : ℕ
  bytes : ℕ → UInt8

namespace PIRReplyExtraction

/-- The variables of the loop over the ciphertexts of a level. -/
structure ExtractionState where
  repliesBuffer : List (ℕ → UInt8)
  inData2b : ℕ → UInt8
  clearChunks : List (ℕ → UInt8)

/-- The variables of the loop over the levels. -/
structure LevelState where
  repliesBuffer : List (ℕ → UInt8)
  inData : Allocation
  clearChunks : List (ℕ → UInt8)

def memcpy (destination : ℕ → UInt8) (offset : ℕ) (source : ℕ → UInt8) (count : ℕ) : ℕ → UInt8 :=
  fun i => if offset ≤ i ∧ i < offset + count then source (i - offset) else destination i

variable (params : PublicParameters) (pirParams : PIRParameters)
  (decrypt : ℕ → (ℕ → UInt8) → ℕ → UInt8)

/--
The next ciphertext, and the replies that are left. Waiting for a reply that does not
come, and reading outside of the buffer, are no results.
-/
def nextCiphertext (recLvl : ℕ) (inData : Allocation) (j : ℕ)
    (repliesBuffer : List (ℕ → UInt8)) : Option ((ℕ → UInt8) × List (ℕ → UInt8)) :=
  if recLvl = pirParams.d then
    match repliesBuffer with
    | [] => none
    | data :: rest => some (data, rest)
  else if j * params.ciphertextBytesize % 2 ^ 32 + params.ciphertextBytesize ≤ inData.size then
    some (fun i => inData.bytes (j * params.ciphertextBytesize % 2 ^ 32 + i), repliesBuffer)
  else none

theorem nextCiphertext_of_ne {recLvl : ℕ} (earlier : recLvl ≠ pirParams.d) (inData : Allocation)
    (j : ℕ) (repliesBuffer : List (ℕ → UInt8)) :
    nextCiphertext params pirParams recLvl inData j repliesBuffer =
      if j * params.ciphertextBytesize % 2 ^ 32 + params.ciphertextBytesize ≤ inData.size then
        some (fun i => inData.bytes (j * params.ciphertextBytesize % 2 ^ 32 + i), repliesBuffer)
      else none :=
  if_neg earlier

theorem nextCiphertext_d (inData : Allocation) (j : ℕ) (data : ℕ → UInt8)
    (rest : List (ℕ → UInt8)) :
    nextCiphertext params pirParams pirParams.d inData j (data :: rest) = some (data, rest) :=
  if_pos rfl

theorem nextCiphertext_nil (inData : Allocation) (j : ℕ) :
    nextCiphertext params pirParams pirParams.d inData j [] = none :=
  if_pos rfl

/-- A round of the loop over the ciphertexts of a level. -/
def extractCiphertext (recLvl : ℕ) (inData : Allocation) (j : ℕ) (state : ExtractionState) :
    Option ExtractionState :=
  (nextCiphertext params pirParams recLvl inData j state.repliesBuffer).map fun next =>
    if 1 < recLvl then
      { repliesBuffer := next.2
        inData2b := memcpy state.inData2b (params.absorptionBytesize * j % 2 ^ 32)
          (decrypt recLvl next.1) params.absorptionBytesize
        clearChunks := state.clearChunks }
    else
      { repliesBuffer := next.2
        inData2b := state.inData2b
        clearChunks := state.clearChunks ++ [decrypt recLvl next.1] }

def extractLevel (fuel : ℕ) (aggregatedMaxFileSize : ℤ) (recLvl : ℕ) (state : LevelState) :
    Option LevelState :=
  (params.ciphertextNbr recLvl aggregatedMaxFileSize).bind fun number =>
    (counterLoop (2 ^ 32) fuel number
      (extractCiphertext params pirParams decrypt recLvl state.inData)
      { repliesBuffer := state.repliesBuffer
        inData2b := fun _ => 0
        clearChunks := state.clearChunks }).map fun final =>
      { repliesBuffer := final.repliesBuffer
        inData := ⟨params.absorptionBytesize * number, final.inData2b⟩
        clearChunks := final.clearChunks }

/-- The chunks of the clear element, given the replies. -/
def extractReply (fuel : ℕ) (aggregatedMaxFileSize : ℤ) (repliesBuffer : List (ℕ → UInt8)) :
    Option (List (ℕ → UInt8)) :=
  (forLoop pirParams.d
    (fun count state => state.bind
      (extractLevel params pirParams decrypt fuel aggregatedMaxFileSize (pirParams.d - count)))
    (some { repliesBuffer := repliesBuffer, inData := ⟨0, fun _ => 0⟩, clearChunks := [] })).map
    LevelState.clearChunks

section Run

variable {params pirParams decrypt} {recLvl count fuel : ℕ} {aggregatedMaxFileSize : ℤ}
  {ciphertexts plaintexts : ℕ → ℕ → UInt8} {state : LevelState}

/-- The replies that are left after some rounds: they are used up at the last level only. -/
def remaining (pirParams : PIRParameters) (recLvl j : ℕ) (repliesBuffer : List (ℕ → UInt8)) :
    List (ℕ → UInt8) :=
  if recLvl = pirParams.d then repliesBuffer.drop j else repliesBuffer

/-- The ciphertexts of a level are there for the loop to take. -/
def Supplies (params : PublicParameters) (pirParams : PIRParameters) (recLvl : ℕ)
    (state : LevelState) (ciphertexts : ℕ → ℕ → UInt8) (count : ℕ) : Prop :=
  ∀ j < count, ∃ data,
    nextCiphertext params pirParams recLvl state.inData j
      (remaining pirParams recLvl j state.repliesBuffer) =
        some (data, remaining pirParams recLvl (j + 1) state.repliesBuffer) ∧
    ∀ i < params.ciphertextBytesize, data i = ciphertexts j i

/-- The plaintexts have been written one after the other. -/
def Written (size : ℕ) (plaintexts : ℕ → ℕ → UInt8) (count : ℕ) (bytes : ℕ → UInt8) : Prop :=
  ∀ position < size * count, bytes position = plaintexts (position / size) (position % size)

theorem Written.memcpy {size j : ℕ} {bytes source : ℕ → UInt8}
    (written : Written size plaintexts j bytes)
    (source_eq : ∀ i < size, source i = plaintexts j i) :
    Written size plaintexts (j + 1) (memcpy bytes (size * j) source size) := by
  intro position position_lt
  rw [PIRReplyExtraction.memcpy]
  split
  next inside =>
    rw [Nat.mul_comm] at position_lt
    have quotient : position / size = j :=
      Nat.div_eq_of_lt_le (by rw [Nat.mul_comm]; exact inside.1) position_lt
    have remainder : position % size = position - size * j := by
      rw [← quotient, Nat.mod_eq_sub_mul_div]
    rw [quotient, remainder]
    exact source_eq _ (by omega)
  next outside =>
    rw [Nat.mul_succ] at position_lt
    exact written position (by omega)

/-- The chunks of the queue are the plaintexts of the first level. -/
def Queued (size : ℕ) (plaintexts : ℕ → ℕ → UInt8) (count : ℕ) (clearChunks : List (ℕ → UInt8)) :
    Prop :=
  clearChunks.length = count ∧
    ∀ j < count, ∀ i < size, clearChunks.getD j (fun _ => 0) i = plaintexts j i

theorem Queued.append {size j : ℕ} {clearChunks : List (ℕ → UInt8)} {chunk : ℕ → UInt8}
    (queued : Queued size plaintexts j clearChunks)
    (chunk_eq : ∀ i < size, chunk i = plaintexts j i) :
    Queued size plaintexts (j + 1) (clearChunks ++ [chunk]) := by
  rcases queued with ⟨rfl, chunks⟩
  refine ⟨by rw [List.length_append, List.length_singleton], ?_⟩
  intro k k_lt i i_lt
  rcases Nat.lt_succ_iff_lt_or_eq.mp k_lt with before | rfl
  · rw [List.getD_append _ _ _ _ before]
    exact chunks k before i i_lt
  · rw [List.getD_append_right _ _ _ _ le_rfl, Nat.sub_self, List.getD_cons_zero]
    exact chunk_eq i i_lt

/-- The loop over the ciphertexts of a level. -/
theorem extractLevel_eq
    (supplies : Supplies params pirParams recLvl state ciphertexts count)
    (number : params.ciphertextNbr recLvl aggregatedMaxFileSize = some count)
    (count_lt : count < 2 ^ 32) (enough : count < fuel)
    (fits : 1 < recLvl → ∀ j < count, params.absorptionBytesize * j < 2 ^ 32)
    (decrypts : ∀ j < count, ∀ data, (∀ i < params.ciphertextBytesize, data i = ciphertexts j i) →
      ∀ i < params.absorptionBytesize, decrypt recLvl data i = plaintexts j i)
    (empty : state.clearChunks = []) :
    ∃ next, extractLevel params pirParams decrypt fuel aggregatedMaxFileSize recLvl state =
        some next ∧
      (if 1 < recLvl then next.inData.size = params.absorptionBytesize * count ∧
          Written params.absorptionBytesize plaintexts count next.inData.bytes ∧
          next.clearChunks = []
        else Queued params.absorptionBytesize plaintexts count next.clearChunks) := by
  rcases counterLoop_total (2 ^ 32) fuel count
    (extractCiphertext params pirParams decrypt recLvl state.inData)
    { repliesBuffer := state.repliesBuffer
      inData2b := fun _ => 0
      clearChunks := state.clearChunks }
    (fun j inner => inner.repliesBuffer = remaining pirParams recLvl j state.repliesBuffer ∧
      if 1 < recLvl then Written params.absorptionBytesize plaintexts j inner.inData2b ∧
        inner.clearChunks = []
      else Queued params.absorptionBytesize plaintexts j inner.clearChunks)
    (by
      refine ⟨by rw [remaining]; split <;> rfl, ?_⟩
      split
      next => exact ⟨fun position position_lt => absurd position_lt (by simp), empty⟩
      next => exact ⟨by rw [empty]; rfl, fun j j_lt => absurd j_lt (Nat.not_lt_zero j)⟩)
    (by
      rintro j ⟨repliesBuffer, inData2b, clearChunks⟩ j_lt ⟨buffer_eq, before⟩
      rcases supplies j j_lt with ⟨data, next_eq, data_eq⟩
      have plain := decrypts j j_lt data data_eq
      dsimp only at buffer_eq before
      rw [← buffer_eq] at next_eq
      rw [extractCiphertext, next_eq, Option.map_some]
      refine ⟨_, rfl, ?_⟩
      by_cases deeper : 1 < recLvl
      · rw [if_pos deeper] at before
        simp only [if_pos deeper]
        rw [Nat.mod_eq_of_lt (fits deeper j j_lt)]
        exact ⟨trivial, before.1.memcpy plain, before.2⟩
      · rw [if_neg deeper] at before
        simp only [if_neg deeper]
        exact ⟨trivial, before.append plain⟩)
    count_lt enough with ⟨final, runs, _, after⟩
  refine ⟨_, by rw [extractLevel, number, Option.bind_some, runs, Option.map_some], ?_⟩
  by_cases deeper : 1 < recLvl
  · rw [if_pos deeper] at after
    rw [if_pos deeper]
    exact ⟨rfl, after.1, after.2⟩
  · rw [if_neg deeper] at after
    rw [if_neg deeper]
    exact after

end Run

section Returned

variable {params pirParams decrypt} {recLvl fuel : ℕ} {aggregatedMaxFileSize : ℤ}
  {state next : LevelState}

/-- What is taken at a level, and what is left after it. -/
theorem nextCiphertext_remaining {inData : Allocation} {j : ℕ} {repliesBuffer : List (ℕ → UInt8)}
    {taken : (ℕ → UInt8) × List (ℕ → UInt8)}
    (takes : nextCiphertext params pirParams recLvl inData j
      (remaining pirParams recLvl j repliesBuffer) = some taken) :
    taken.2 = remaining pirParams recLvl (j + 1) repliesBuffer ∧
      if recLvl = pirParams.d then repliesBuffer[j]? = some taken.1
      else taken.1 = fun i => inData.bytes (j * params.ciphertextBytesize % 2 ^ 32 + i) := by
  by_cases last : recLvl = pirParams.d
  · rw [last, remaining, if_pos rfl] at takes
    rw [last, remaining, if_pos rfl, if_pos rfl]
    rcases Nat.lt_or_ge j repliesBuffer.length with inside | outside
    · rw [List.drop_eq_getElem_cons inside, nextCiphertext_d] at takes
      rw [← Option.some.inj takes]
      exact ⟨rfl, List.getElem?_eq_getElem inside⟩
    · rw [List.drop_eq_nil_of_le outside, nextCiphertext_nil] at takes
      exact absurd takes (by simp)
  · rw [remaining, if_neg last, nextCiphertext_of_ne _ _ last] at takes
    rw [remaining, if_neg last, if_neg last]
    split at takes
    next =>
      rw [← Option.some.inj takes]
      exact ⟨rfl, rfl⟩
    next => exact absurd takes (by simp)

theorem exists_of_extractLevel
    (returns : extractLevel params pirParams decrypt fuel aggregatedMaxFileSize recLvl state =
      some next) :
    ∃ number final, params.ciphertextNbr recLvl aggregatedMaxFileSize = some number ∧
      number < 2 ^ 32 ∧
      counterLoop (2 ^ 32) fuel number
        (extractCiphertext params pirParams decrypt recLvl state.inData)
        ⟨state.repliesBuffer, fun _ => 0, state.clearChunks⟩ = some final ∧
      next = ⟨final.repliesBuffer, ⟨params.absorptionBytesize * number, final.inData2b⟩,
        final.clearChunks⟩ := by
  rcases Option.bind_eq_some_iff.mp returns with ⟨number, number_eq, runs⟩
  rcases Option.map_eq_some_iff.mp runs with ⟨final, loop, rfl⟩
  refine ⟨number, final, number_eq, ?_, loop, rfl⟩
  by_contra large
  rw [counterLoop_eq_none (by decide) (not_lt.mp large)] at loop
  exact absurd loop (by simp)

/-- At the last level, a ciphertext that does not come is waited for. -/
theorem le_length_of_extractLevel {number : ℕ}
    (returns : extractLevel params pirParams decrypt fuel aggregatedMaxFileSize pirParams.d state =
      some next)
    (number_eq : params.ciphertextNbr pirParams.d aggregatedMaxFileSize = some number) :
    number ≤ state.repliesBuffer.length := by
  rcases exists_of_extractLevel returns with ⟨_, final, same, number_lt, loop, -⟩
  obtain rfl := Option.some.inj (number_eq.symm.trans same)
  have popped := counterLoop_invariant (fun j inner =>
    inner.repliesBuffer = remaining pirParams pirParams.d j state.repliesBuffer ∧
      j ≤ state.repliesBuffer.length) number_lt
    (by
      rintro j inner after j_lt ⟨buffer_eq, _⟩ steps
      rcases Option.map_eq_some_iff.mp steps with ⟨taken, takes, rfl⟩
      rw [buffer_eq] at takes
      rcases nextCiphertext_remaining takes with ⟨rest_eq, taken_eq⟩
      rw [if_pos rfl] at taken_eq
      have inside := (List.getElem?_eq_some_iff.mp taken_eq).1
      refine ⟨?_, inside⟩
      rw [← rest_eq]
      split <;> rfl)
    ⟨by rw [remaining, if_pos rfl, List.drop_zero], Nat.zero_le _⟩ loop
  exact popped.2

/-- Below the last level, everything that is read lies inside the plaintexts of the level above. -/
theorem reads_of_extractLevel
    (returns : extractLevel params pirParams decrypt fuel aggregatedMaxFileSize recLvl state =
      some next) :
    ∃ number, params.ciphertextNbr recLvl aggregatedMaxFileSize = some number ∧
      number < 2 ^ 32 ∧ next.inData.size = params.absorptionBytesize * number ∧
      next.clearChunks.length = state.clearChunks.length + (if 1 < recLvl then 0 else number) ∧
      (recLvl ≠ pirParams.d → ∀ j < number,
        j * params.ciphertextBytesize % 2 ^ 32 + params.ciphertextBytesize ≤ state.inData.size) := by
  rcases exists_of_extractLevel returns with ⟨number, final, number_eq, number_lt, loop, rfl⟩
  have read := counterLoop_invariant (fun j inner =>
    inner.clearChunks.length = state.clearChunks.length + (if 1 < recLvl then 0 else j) ∧
      (recLvl ≠ pirParams.d → ∀ i < j,
        i * params.ciphertextBytesize % 2 ^ 32 + params.ciphertextBytesize ≤ state.inData.size))
    number_lt
    (by
      rintro j inner after j_lt ⟨length_eq, inside⟩ steps
      rcases Option.map_eq_some_iff.mp steps with ⟨taken, takes, rfl⟩
      constructor
      · split
        next deeper =>
          rw [if_pos deeper] at length_eq
          exact length_eq
        next deeper =>
          rw [if_neg deeper] at length_eq
          rw [List.length_append, List.length_singleton, length_eq, Nat.add_assoc]
      · intro earlier i i_le
        rcases Nat.lt_succ_iff_lt_or_eq.mp i_le with before | rfl
        · exact inside earlier i before
        · rw [nextCiphertext_of_ne _ _ earlier] at takes
          by_contra outside
          rw [if_neg outside] at takes
          exact absurd takes (by simp))
    ⟨by simp, fun _ i i_lt => absurd i_lt (Nat.not_lt_zero i)⟩ loop
  exact ⟨number, number_eq, number_lt, rfl, read.1, read.2⟩

/-- The numbers of ciphertexts of all levels, and the offsets at which they are read. -/
theorem numbers_of_extractReply {repliesBuffer clearChunks : List (ℕ → UInt8)}
    (returns : extractReply params pirParams decrypt fuel aggregatedMaxFileSize repliesBuffer =
      some clearChunks) :
    ∃ numbers : ℕ → ℕ,
      (∀ level < pirParams.d,
        params.ciphertextNbr (level + 1) aggregatedMaxFileSize = some (numbers level) ∧
          numbers level < 2 ^ 32) ∧
      (∀ level, level + 1 < pirParams.d → ∀ j < numbers level,
        j * params.ciphertextBytesize % 2 ^ 32 + params.ciphertextBytesize ≤
          params.absorptionBytesize * numbers (level + 1)) ∧
      clearChunks.length = numbers 0 := by
  let numbers : ℕ → ℕ := fun level =>
    (params.ciphertextNbr (level + 1) aggregatedMaxFileSize).getD 0
  rcases Option.map_eq_some_iff.mp returns with ⟨final, runs, rfl⟩
  have read := forLoop_induction pirParams.d
    (fun count state => Option.bind state
      (extractLevel params pirParams decrypt fuel aggregatedMaxFileSize (pirParams.d - count)))
    (some ⟨repliesBuffer, ⟨0, fun _ => 0⟩, []⟩)
    (fun done reached => ∀ state, reached = some state →
      (∀ level, pirParams.d - done ≤ level → level < pirParams.d →
        params.ciphertextNbr (level + 1) aggregatedMaxFileSize = some (numbers level) ∧
          numbers level < 2 ^ 32) ∧
      (∀ level, pirParams.d - done ≤ level → level + 1 < pirParams.d → ∀ j < numbers level,
        j * params.ciphertextBytesize % 2 ^ 32 + params.ciphertextBytesize ≤
          params.absorptionBytesize * numbers (level + 1)) ∧
      (0 < done →
        state.inData.size = params.absorptionBytesize * numbers (pirParams.d - done)) ∧
      state.clearChunks.length = if done = pirParams.d then numbers 0 else 0)
    (by
      rintro state ⟨⟩
      refine ⟨fun level _ _ => by omega, fun level _ _ => by omega,
        fun impossible => absurd impossible (lt_irrefl 0), ?_⟩
      rw [if_neg pirParams.d_pos.ne]
      rfl)
    (by
      intro done reached done_lt before after steps
      rcases Option.bind_eq_some_iff.mp steps with ⟨state, rfl, level_eq⟩
      rcases before state rfl with ⟨counted, inside, size_eq, length_eq⟩
      rcases reads_of_extractLevel level_eq with
        ⟨number, number_eq, number_lt, size_next, length_next, reads⟩
      rcases Nat.exists_eq_add_of_lt done_lt with ⟨current, d_eq⟩
      have recLvl_eq : pirParams.d - done = current + 1 := by omega
      have rest_eq : pirParams.d - (done + 1) = current := by omega
      rw [recLvl_eq] at number_eq reads length_next counted inside
      have number_is : numbers current = number := by
        change (params.ciphertextNbr (current + 1) aggregatedMaxFileSize).getD 0 = number
        rw [number_eq, Option.getD_some]
      rw [rest_eq]
      refine ⟨?_, ?_, fun _ => by rw [size_next, number_is], ?_⟩
      · intro level level_ge level_lt
        rcases Nat.eq_or_lt_of_le level_ge with rfl | above
        · rw [number_is]
          exact ⟨number_eq, number_lt⟩
        · exact counted level above level_lt
      · intro level level_ge level_lt
        rcases Nat.eq_or_lt_of_le level_ge with rfl | above
        · rw [number_is]
          have done_pos : 0 < done := by omega
          have source := size_eq done_pos
          rw [recLvl_eq] at source
          rw [← source]
          exact reads (by omega)
        · exact inside level above level_lt
      · rw [length_next, length_eq, if_neg done_lt.ne, Nat.zero_add]
        by_cases lowest : current = 0
        · rw [if_neg (by omega), if_pos (by omega), ← number_is, lowest]
        · rw [if_pos (by omega), if_neg (by omega)])
  rcases read final runs with ⟨counted, inside, _, length_eq⟩
  rw [Nat.sub_self] at counted inside
  rw [if_pos rfl] at length_eq
  exact ⟨numbers, fun level => counted level (Nat.zero_le _),
    fun level => inside level (Nat.zero_le _), length_eq⟩

end Returned

end PIRReplyExtraction

end Xpir
