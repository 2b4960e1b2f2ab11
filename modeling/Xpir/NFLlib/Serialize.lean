import Xpir.Foundations.BitString
import Xpir.Foundations.Loop

/-!
# Serialization of coefficients

This file models the data export. The words that hold the coefficients, or the
32-bit parts of the coefficients, are or-ed one after the other into the output
through a 64-bit window that moves by whole bytes. Both exporting functions are
the same loop on different sizes of words; `serialize_eq` says that it ends, with
the words concatenated.
-/

namespace Xpir

/-- The loop variables of the serialization. -/
structure SerializeState where
  outdata : ℕ → UInt8
  i : ℕ
  pointer64 : ℕ
  bitswritten : ℕ
  subchunkIndex : ℕ

section Model

variable (subchunkSizes : ℕ → ℕ) (parts : ℕ) (indata : ℕ → ℕ) (nbOfWords : ℕ)

/-- Write one word into the window. -/
def writeSubchunk (state : SerializeState) : SerializeState where
  outdata := orWord state.outdata state.pointer64
    ((indata state.i <<< state.bitswritten) % 2 ^ 64)
  i := state.i + 1
  pointer64 := state.pointer64
  bitswritten := state.bitswritten + subchunkSizes state.subchunkIndex
  subchunkIndex := (state.subchunkIndex + 1) % parts

/-- Write words as long as they fit into the window and there are any left. -/
def writeWindow (fuel : ℕ) (state : SerializeState) : Option SerializeState :=
  whileLoop
    (fun state => state.bitswritten + subchunkSizes state.subchunkIndex ≤ 64 &&
      state.i ≠ nbOfWords)
    (fun state => some (writeSubchunk subchunkSizes parts indata state)) fuel state

def skipWritten (state : SerializeState) : SerializeState :=
  { state with
    pointer64 := state.pointer64 + state.bitswritten >>> 3
    bitswritten := state.bitswritten - 8 * (state.bitswritten >>> 3) }

/-- The loop common to both serializations, on a zeroed output. -/
def serialize (fuel : ℕ) : Option (ℕ → UInt8) :=
  (whileLoop (fun state => state.i < nbOfWords)
    (fun state => (writeWindow subchunkSizes parts indata nbOfWords fuel state).map skipWritten)
    fuel
    { outdata := fun _ => 0, i := 0, pointer64 := 0, bitswritten := 0,
      subchunkIndex := 0 }).map SerializeState.outdata

end Model

def serializeData64 (fuel : ℕ) (indata : ℕ → ℕ) (bitsPerChunk nbOfUint64 : ℕ) :
    Option (ℕ → UInt8) :=
  serialize (fun _ => bitsPerChunk) 1 indata nbOfUint64 fuel

def serializeData32 (fuel : ℕ) (indata : ℕ → ℕ) (bitsPerChunk nbOfUint32 : ℕ) :
    Option (ℕ → UInt8) :=
  serialize (subchunkSize 32 bitsPerChunk) (subchunkCount 32 bitsPerChunk) indata nbOfUint32 fuel

section Concatenation

variable {subchunkSizes : ℕ → ℕ} {parts : ℕ} {indata : ℕ → ℕ} {nbOfWords : ℕ}
  {start : ℕ → ℕ} {value : ℕ}

/-- The words are successive slices of a bit string. -/
structure Sliced (subchunkSizes : ℕ → ℕ) (parts : ℕ) (indata : ℕ → ℕ) (nbOfWords : ℕ)
    (start : ℕ → ℕ) (value : ℕ) : Prop where
  parts_pos : 0 < parts
  size_le : ∀ part, subchunkSizes part ≤ 56
  start_zero : start 0 = 0
  start_succ : ∀ i, start (i + 1) = start i + subchunkSizes (i % parts)
  word : ∀ i < nbOfWords, indata i = bitSlice value (start i) (subchunkSizes (i % parts))

/-- The invariant of the serialization: what has been written is the beginning of the string. -/
structure Written (parts nbOfWords : ℕ) (start : ℕ → ℕ) (value : ℕ)
    (state : SerializeState) : Prop where
  position : 8 * state.pointer64 + state.bitswritten = start state.i
  i_le : state.i ≤ nbOfWords
  index : state.subchunkIndex = state.i % parts
  bitswritten_le : state.bitswritten ≤ 64
  bits : ∀ byte, ∀ bit < 8, (state.outdata byte).toNat.testBit bit =
    (decide (8 * byte + bit < start state.i) && value.testBit (8 * byte + bit))

theorem Written.writeSubchunk {state : SerializeState}
    (sliced : Sliced subchunkSizes parts indata nbOfWords start value)
    (written : Written parts nbOfWords start value state) (unfinished : state.i < nbOfWords)
    (fits : state.bitswritten + subchunkSizes state.subchunkIndex ≤ 64) :
    Written parts nbOfWords start value (writeSubchunk subchunkSizes parts indata state) := by
  have position := written.position
  have next := sliced.start_succ state.i
  rw [← written.index] at next
  refine ⟨?_, unfinished, ?_, fits, ?_⟩
  · change 8 * state.pointer64 + (state.bitswritten + _) = start (state.i + 1)
    omega
  · change (state.subchunkIndex + 1) % parts = (state.i + 1) % parts
    rw [written.index, Nat.mod_add_mod]
  · intro byte bit bit_lt
    change (orWord _ _ _ byte).toNat.testBit bit =
      (decide (8 * byte + bit < start (state.i + 1)) && _)
    rw [testBit_orWord _ _ _ _ bit_lt, written.bits byte bit bit_lt, sliced.word _ unfinished,
      ← written.index, Nat.testBit_mod_two_pow, Nat.testBit_shiftLeft, testBit_bitSlice, next]
    rcases Nat.lt_or_ge (8 * byte + bit) (start state.i) with before | after
    · -- Bits written earlier are below those of the word.
      have earlier : state.pointer64 ≤ byte →
          ¬ 8 * (byte - state.pointer64) + bit ≥ state.bitswritten := by omega
      have still : 8 * byte + bit < start state.i + subchunkSizes state.subchunkIndex := by omega
      by_cases reached : state.pointer64 ≤ byte
      · simp [before, still, earlier reached]
      · simp [before, still, reached]
    · rcases Nat.lt_or_ge (8 * byte + bit) (start state.i + subchunkSizes state.subchunkIndex)
        with inside | beyond
      · have reached : state.pointer64 ≤ byte ∧ byte < state.pointer64 + 8 := by omega
        have loaded : 8 * (byte - state.pointer64) + bit < 64 := by omega
        have shifted : state.bitswritten ≤ 8 * (byte - state.pointer64) + bit := by omega
        have offset_lt : 8 * (byte - state.pointer64) + bit - state.bitswritten <
            subchunkSizes state.subchunkIndex := by omega
        have offset_eq : start state.i +
            (8 * (byte - state.pointer64) + bit - state.bitswritten) = 8 * byte + bit := by omega
        simp [not_lt.mpr after, inside, reached, loaded, shifted, offset_lt, offset_eq]
      · have outside : state.pointer64 ≤ byte →
            ¬ 8 * (byte - state.pointer64) + bit - state.bitswritten <
              subchunkSizes state.subchunkIndex := by omega
        by_cases reached : state.pointer64 ≤ byte
        · simp [not_lt.mpr after, not_lt.mpr beyond, outside reached]
        · simp [not_lt.mpr after, not_lt.mpr beyond, reached]

theorem Written.writeWindow {fuel : ℕ} {state : SerializeState}
    (sliced : Sliced subchunkSizes parts indata nbOfWords start value)
    (written : Written parts nbOfWords start value state) (aligned : state.bitswritten < 8)
    (unfinished : state.i < nbOfWords) (enough : nbOfWords < fuel) :
    ∃ filled, writeWindow subchunkSizes parts indata nbOfWords fuel state = some filled ∧
      Written parts nbOfWords start value filled ∧ state.i < filled.i := by
  -- The first word always fits, since less than a byte is left of the window.
  rcases whileLoop_total
    (fun state : SerializeState =>
      state.bitswritten + subchunkSizes state.subchunkIndex ≤ 64 && state.i ≠ nbOfWords)
    (fun state => some (Xpir.writeSubchunk subchunkSizes parts indata state))
    (fun filled => Written parts nbOfWords start value filled ∧
      (filled = state ∨ state.i < filled.i))
    (fun filled => nbOfWords - filled.i)
    (by
      rintro filled ⟨holds, later⟩ continues
      simp only [Bool.and_eq_true, decide_eq_true_eq] at continues
      have room : filled.i < nbOfWords := lt_of_le_of_ne holds.i_le continues.2
      refine ⟨_, rfl, ⟨holds.writeSubchunk sliced room continues.1, ?_⟩, ?_⟩
      · right
        change state.i < filled.i + 1
        rcases later with rfl | later <;> omega
      · change nbOfWords - (filled.i + 1) < nbOfWords - filled.i
        omega)
    fuel state ⟨written, Or.inl rfl⟩ (by omega) with ⟨filled, runs, ⟨holds, later⟩, stops⟩
  refine ⟨filled, runs, holds, ?_⟩
  rcases later with rfl | later
  · have size_le := sliced.size_le filled.subchunkIndex
    have fits : filled.bitswritten + subchunkSizes filled.subchunkIndex ≤ 64 := by omega
    simp [fits, unfinished.ne] at stops
  · exact later

theorem Written.skipWritten {state : SerializeState}
    (written : Written parts nbOfWords start value state) :
    Written parts nbOfWords start value (skipWritten state) ∧
      (skipWritten state).bitswritten < 8 := by
  have position := written.position
  have bitswritten_le := written.bitswritten_le
  rw [Xpir.skipWritten, Nat.shiftRight_eq_div_pow]
  refine ⟨⟨?_, written.i_le, written.index, ?_, written.bits⟩, ?_⟩
  · change 8 * (state.pointer64 + state.bitswritten / 8) +
      (state.bitswritten - 8 * (state.bitswritten / 8)) = start state.i
    omega
  · change state.bitswritten - 8 * (state.bitswritten / 8) ≤ 64
    omega
  · change state.bitswritten - 8 * (state.bitswritten / 8) < 8
    omega

/-- The serialization ends, with the beginning of the bit string in the output. -/
theorem serialize_eq (sliced : Sliced subchunkSizes parts indata nbOfWords start value)
    {fuel : ℕ} (enough : nbOfWords < fuel) :
    ∃ outdata, serialize subchunkSizes parts indata nbOfWords fuel = some outdata ∧
      ∀ byte, (outdata byte).toNat = bitSlice (value % 2 ^ start nbOfWords) (8 * byte) 8 := by
  rcases whileLoop_total (fun state : SerializeState => state.i < nbOfWords)
    (fun state => (writeWindow subchunkSizes parts indata nbOfWords fuel state).map
      skipWritten)
    (fun state => Written parts nbOfWords start value state ∧ state.bitswritten < 8)
    (fun state => nbOfWords - state.i)
    (by
      rintro state ⟨holds, aligned⟩ continues
      have unfinished : state.i < nbOfWords := of_decide_eq_true continues
      rcases holds.writeWindow sliced aligned unfinished enough with
        ⟨filled, writes, filledHolds, later⟩
      refine ⟨skipWritten filled, by rw [writes]; rfl, filledHolds.skipWritten, ?_⟩
      change nbOfWords - filled.i < nbOfWords - state.i
      omega)
    fuel ⟨fun _ => 0, 0, 0, 0, 0⟩
    ⟨⟨by simp [sliced.start_zero], Nat.zero_le _, by simp, by simp,
      fun byte bit _ => by simp [sliced.start_zero]⟩, by simp⟩
    (by omega) with ⟨final, runs, ⟨holds, _⟩, stops⟩
  have finished : final.i = nbOfWords := le_antisymm holds.i_le (not_lt.mp (of_decide_eq_false stops))
  refine ⟨final.outdata, ?_, ?_⟩
  · rw [serialize, runs]
    rfl
  · intro byte
    apply Nat.eq_of_testBit_eq
    intro bit
    rw [testBit_bitSlice, Nat.testBit_mod_two_pow, ← finished]
    by_cases bit_lt : bit < 8
    · rw [holds.bits byte bit bit_lt, decide_eq_true bit_lt, Bool.true_and]
    · have high : (final.outdata byte).toNat < 2 ^ bit :=
        (final.outdata byte).toNat_lt.trans_le (Nat.pow_le_pow_right (by decide) (not_lt.mp bit_lt))
      simp [bit_lt, Nat.testBit_lt_two_pow high]

end Concatenation

/-- Coefficients of at most 56 bits are concatenated. -/
theorem serializeData64_eq (fuel : ℕ) {indata : ℕ → ℕ} {bitsPerChunk nbOfUint64 value : ℕ}
    (size_le : bitsPerChunk ≤ 56)
    (word : ∀ i < nbOfUint64, indata i = bitSlice value (i * bitsPerChunk) bitsPerChunk)
    (enough : nbOfUint64 < fuel) :
    ∃ outdata, serializeData64 fuel indata bitsPerChunk nbOfUint64 = some outdata ∧
      ∀ byte, (outdata byte).toNat =
        bitSlice (value % 2 ^ (nbOfUint64 * bitsPerChunk)) (8 * byte) 8 := by
  have sliced : Sliced (fun _ => bitsPerChunk) 1 indata nbOfUint64 (· * bitsPerChunk) value :=
    ⟨by decide, fun _ => size_le, Nat.zero_mul _, fun i => Nat.succ_mul i _, word⟩
  exact serialize_eq sliced enough

/-- Coefficients given by their 32-bit parts are concatenated. -/
theorem serializeData32_eq (fuel : ℕ) {indata : ℕ → ℕ} {bitsPerChunk nbOfUint32 value : ℕ}
    (chunk_pos : 0 < bitsPerChunk)
    (word : ∀ i < nbOfUint32, indata i = bitSlice value (subchunkStart 32 bitsPerChunk i)
      (subchunkSize 32 bitsPerChunk (i % subchunkCount 32 bitsPerChunk)))
    (enough : nbOfUint32 < fuel) :
    ∃ outdata, serializeData32 fuel indata bitsPerChunk nbOfUint32 = some outdata ∧
      ∀ byte, (outdata byte).toNat =
        bitSlice (value % 2 ^ subchunkStart 32 bitsPerChunk nbOfUint32) (8 * byte) 8 := by
  have sliced : Sliced (subchunkSize 32 bitsPerChunk) (subchunkCount 32 bitsPerChunk) indata
      nbOfUint32 (subchunkStart 32 bitsPerChunk) value :=
    ⟨subchunkCount_pos (by decide) chunk_pos,
      fun part => (subchunkSize_le (by decide) chunk_pos part).trans (by decide),
      by simp [subchunkStart], subchunkStart_succ (by decide) chunk_pos, word⟩
  exact serialize_eq sliced enough

end Xpir
