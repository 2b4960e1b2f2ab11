import Mathlib.Algebra.BigOperators.Intervals
import Mathlib.Algebra.Order.Ring.Nat
import Mathlib.Data.Nat.Bitwise
import Mathlib.Tactic.Ring

/-!
# Bit strings

A natural number is read as a little-endian bit string. This file relates three
views of one string: the digits it concatenates, the slices taken out of it, and
the bytes that store it. Every identity is checked bit by bit, so that a word
loaded at any byte offset, shifted and masked, is recognised as a slice.

A string cut into chunks of equal width is often handled in units of a narrower
width, the last unit of each chunk being smaller. The section on subchunks gives
the position of every unit and puts the units of one chunk together again.
-/

namespace Xpir

open Finset

/-- The number with the given digits in base `2 ^ width`, lowest digit first. -/
def concatenate (width : ℕ) (digits : ℕ → ℕ) (count : ℕ) : ℕ :=
  ∑ k ∈ range count, digits k * 2 ^ (width * k)

/-- The number formed by the bits `[start, start + length)`. -/
def bitSlice (value start length : ℕ) : ℕ :=
  value / 2 ^ start % 2 ^ length

theorem concatenate_succ (width : ℕ) (digits : ℕ → ℕ) (count : ℕ) :
    concatenate width digits (count + 1) =
      2 ^ (width * count) * digits count + concatenate width digits count := by
  rw [concatenate, sum_range_succ, mul_comm (digits count), add_comm]
  rfl

theorem concatenate_congr {width count : ℕ} {left right : ℕ → ℕ}
    (agree : ∀ k < count, left k = right k) :
    concatenate width left count = concatenate width right count := by
  apply sum_congr rfl
  intro k k_mem
  rw [agree k (mem_range.mp k_mem)]

theorem concatenate_eq_zero_iff {width count : ℕ} {digits : ℕ → ℕ} :
    concatenate width digits count = 0 ↔ ∀ k < count, digits k = 0 := by
  simp [concatenate, sum_eq_zero_iff]

section Digits

variable {width : ℕ} {digits : ℕ → ℕ}

theorem concatenate_lt (digits_lt : ∀ k, digits k < 2 ^ width) (count : ℕ) :
    concatenate width digits count < 2 ^ (width * count) := by
  induction count with
  | zero => simp [concatenate]
  | succ count ih =>
      have top : 2 ^ (width * count) * (digits count + 1) ≤ 2 ^ (width * count) * 2 ^ width :=
        Nat.mul_le_mul_left _ (digits_lt count)
      rw [concatenate_succ, Nat.mul_succ, pow_add]
      rw [Nat.mul_succ] at top
      omega

theorem testBit_concatenate (width_pos : 0 < width) (digits_lt : ∀ k, digits k < 2 ^ width)
    (count position : ℕ) :
    (concatenate width digits count).testBit position =
      (decide (position < width * count) &&
        (digits (position / width)).testBit (position % width)) := by
  induction count with
  | zero => simp [concatenate]
  | succ count ih =>
      rw [concatenate_succ, Nat.testBit_two_pow_mul_add _ (concatenate_lt digits_lt count), ih,
        Nat.mul_succ]
      by_cases before : position < width * count
      · have within : position < width * count + width := by omega
        simp [before, within]
      · rcases Nat.exists_eq_add_of_le (not_lt.mp before) with ⟨rest, rfl⟩
        rw [if_neg before, Nat.add_sub_cancel_left]
        by_cases inside : rest < width
        · rw [Nat.mul_add_div width_pos, Nat.div_eq_of_lt inside, Nat.mul_add_mod,
            Nat.mod_eq_of_lt inside]
          simp [inside]
        · have beyond : digits count < 2 ^ rest :=
            (digits_lt count).trans_le (Nat.pow_le_pow_right (by decide) (not_lt.mp inside))
          simp [inside, Nat.testBit_lt_two_pow beyond]

end Digits

section Slices

variable (value start length : ℕ)

theorem bitSlice_lt : bitSlice value start length < 2 ^ length :=
  Nat.mod_lt _ (Nat.two_pow_pos length)

@[simp]
theorem testBit_bitSlice (position : ℕ) :
    (bitSlice value start length).testBit position =
      (decide (position < length) && value.testBit (start + position)) := by
  rw [bitSlice, Nat.testBit_mod_two_pow, Nat.testBit_div_two_pow, add_comm]

theorem bitSlice_eq_zero {value start : ℕ} (value_lt : value < 2 ^ start) (length : ℕ) :
    bitSlice value start length = 0 := by
  rw [bitSlice, Nat.div_eq_of_lt value_lt, Nat.zero_mod]

theorem bitSlice_bitSlice (inner rest : ℕ) (inside : inner + rest ≤ length) :
    bitSlice (bitSlice value start length) inner rest = bitSlice value (start + inner) rest := by
  apply Nat.eq_of_testBit_eq
  intro position
  by_cases position_lt : position < rest
  · have within : inner + position < length := by omega
    simp [position_lt, within, add_assoc]
  · simp [position_lt]

/-- Nothing is gained by a slice that goes beyond the number. -/
theorem bitSlice_of_lt {value start length longer : ℕ} (value_lt : value < 2 ^ (start + length))
    (longer_ge : length ≤ longer) : bitSlice value start longer = bitSlice value start length := by
  apply Nat.eq_of_testBit_eq
  intro position
  rcases Nat.lt_or_ge position length with inside | beyond
  · simp [inside, inside.trans_le longer_ge]
  · have high : value < 2 ^ (start + position) :=
      value_lt.trans_le (Nat.pow_le_pow_right (by decide) (by omega))
    simp [not_lt.mpr beyond, Nat.testBit_lt_two_pow high]

theorem bitSlice_add (low high : ℕ) :
    bitSlice value start (low + high) =
      bitSlice value start low + 2 ^ low * bitSlice value (start + low) high := by
  rw [bitSlice, pow_add, Nat.mod_mul, Nat.div_div_eq_div_mul, ← pow_add]
  rfl

/-- The slices of a number are the digits it has been concatenated from. -/
theorem bitSlice_concatenate {width : ℕ} {digits : ℕ → ℕ} (width_pos : 0 < width)
    (digits_lt : ∀ k, digits k < 2 ^ width) (count k : ℕ) :
    bitSlice (concatenate width digits count) (width * k) width =
      if k < count then digits k else 0 := by
  apply Nat.eq_of_testBit_eq
  intro position
  rw [testBit_bitSlice, testBit_concatenate width_pos digits_lt]
  by_cases position_lt : position < width
  · rw [Nat.mul_add_div width_pos, Nat.div_eq_of_lt position_lt, Nat.mul_add_mod,
      Nat.mod_eq_of_lt position_lt, Nat.add_zero]
    have within : width * k + position < width * count ↔ k < count := by
      rw [Nat.mul_comm width count, ← Nat.div_lt_iff_lt_mul width_pos, Nat.mul_add_div width_pos,
        Nat.div_eq_of_lt position_lt, Nat.add_zero]
    by_cases inside : k < count
    · simp [position_lt, within, inside]
    · simp [within, inside]
  · have high : digits k < 2 ^ position :=
      (digits_lt k).trans_le (Nat.pow_le_pow_right (by decide) (not_lt.mp position_lt))
    split <;> simp [position_lt, Nat.testBit_lt_two_pow high]

/-- A number is concatenated from its slices. -/
theorem concatenate_bitSlice {width : ℕ} (width_pos : 0 < width) (value count : ℕ) :
    concatenate width (fun k => bitSlice value (width * k) width) count =
      value % 2 ^ (width * count) := by
  apply Nat.eq_of_testBit_eq
  intro position
  rw [testBit_concatenate width_pos (fun k => bitSlice_lt _ _ _), testBit_bitSlice,
    Nat.div_add_mod, Nat.testBit_mod_two_pow]
  simp [Nat.mod_lt _ width_pos]

/-- A number is zero if all its slices are. -/
theorem forall_bitSlice_eq_zero_iff {width value count : ℕ} (width_pos : 0 < width)
    (value_lt : value < 2 ^ (width * count)) :
    (∀ k < count, bitSlice value (width * k) width = 0) ↔ value = 0 := by
  rw [← concatenate_eq_zero_iff, concatenate_bitSlice width_pos, Nat.mod_eq_of_lt value_lt]

theorem bitSlice_lor (low high : ℕ) :
    bitSlice value start low ||| bitSlice value (start + low) high <<< low =
      bitSlice value start (low + high) := by
  have low_lt : bitSlice value start low < 2 ^ low := bitSlice_lt value start low
  rw [bitSlice_add, Nat.add_comm (bitSlice value start low), Nat.two_pow_add_eq_or_of_lt low_lt,
    Nat.lor_comm, Nat.shiftLeft_eq, mul_comm (bitSlice value (start + low) high)]

end Slices

section Bytes

/-- The number stored by a run of bytes, lowest byte first. -/
def littleEndian (bytes : ℕ → UInt8) (count : ℕ) : ℕ :=
  concatenate 8 (fun k => (bytes k).toNat) count

/-- The 64-bit word stored at a byte offset. -/
def loadWord (memory : ℤ → UInt8) (pointer : ℤ) : ℕ :=
  littleEndian (fun k => memory (pointer + k)) 8

/-- The memory after a 64-bit word has been or-ed in at a byte offset. -/
def orWord (memory : ℕ → UInt8) (pointer word : ℕ) : ℕ → UInt8 := fun byte =>
  if pointer ≤ byte ∧ byte < pointer + 8 then
    memory byte ||| UInt8.ofNat (word >>> (8 * (byte - pointer)))
  else memory byte

theorem testBit_littleEndian (bytes : ℕ → UInt8) (count position : ℕ) :
    (littleEndian bytes count).testBit position =
      (decide (position < 8 * count) && (bytes (position / 8)).toNat.testBit (position % 8)) :=
  testBit_concatenate (by decide) (fun k => (bytes k).toNat_lt) count position

theorem littleEndian_lt (bytes : ℕ → UInt8) (count : ℕ) :
    littleEndian bytes count < 2 ^ (8 * count) :=
  concatenate_lt (fun k => (bytes k).toNat_lt) count

/-- A byte is a slice of eight bits. -/
theorem bitSlice_littleEndian (bytes : ℕ → UInt8) (count byte : ℕ) :
    bitSlice (littleEndian bytes count) (8 * byte) 8 =
      if byte < count then (bytes byte).toNat else 0 :=
  bitSlice_concatenate (by decide) (fun k => (bytes k).toNat_lt) count byte

theorem testBit_loadWord (memory : ℤ → UInt8) (pointer : ℤ) (position : ℕ) :
    (loadWord memory pointer).testBit position =
      (decide (position < 64) &&
        (memory (pointer + (position / 8 : ℕ))).toNat.testBit (position % 8)) :=
  testBit_littleEndian _ 8 position

theorem testBit_orWord (memory : ℕ → UInt8) (pointer word byte : ℕ) {position : ℕ}
    (position_lt : position < 8) :
    (orWord memory pointer word byte).toNat.testBit position =
      ((memory byte).toNat.testBit position ||
        (decide (pointer ≤ byte ∧ byte < pointer + 8) &&
          word.testBit (8 * (byte - pointer) + position))) := by
  rw [orWord]
  by_cases inside : pointer ≤ byte ∧ byte < pointer + 8
  · rw [if_pos inside, UInt8.toNat_or, Nat.testBit_or, UInt8.toNat_ofNat',
      Nat.testBit_mod_two_pow, Nat.testBit_shiftRight]
    simp [inside, position_lt]
  · rw [if_neg inside]
    simp [inside]

end Bytes

section Subchunks

variable (unit chunk : ℕ)

/-- The number of units needed for one chunk. -/
def subchunkCount : ℕ := (chunk + unit - 1) / unit

/-- The width of the given unit of a chunk: only the last one may be smaller. -/
def subchunkSize (index : ℕ) : ℕ :=
  if index + 1 < subchunkCount unit chunk then unit
  else chunk - unit * (subchunkCount unit chunk - 1)

/-- The position of the given unit of a whole sequence of chunks. -/
def subchunkStart (index : ℕ) : ℕ :=
  index / subchunkCount unit chunk * chunk + index % subchunkCount unit chunk * unit

variable {unit chunk : ℕ} (unit_pos : 0 < unit) (chunk_pos : 0 < chunk)

include unit_pos chunk_pos

theorem subchunkCount_pos : 0 < subchunkCount unit chunk := by
  apply Nat.div_pos _ unit_pos
  omega

theorem mul_subchunkCount_pred_lt : unit * (subchunkCount unit chunk - 1) < chunk := by
  have count_pos := subchunkCount_pos unit_pos chunk_pos
  have below : unit * subchunkCount unit chunk ≤ chunk + unit - 1 := Nat.mul_div_le _ _
  rw [Nat.mul_sub_one]
  omega

theorem le_mul_subchunkCount : chunk ≤ unit * subchunkCount unit chunk := by
  have above : chunk + unit - 1 < unit * (subchunkCount unit chunk + 1) :=
    Nat.lt_mul_div_succ _ unit_pos
  rw [Nat.mul_succ] at above
  omega

theorem subchunkSize_pos (index : ℕ) : 0 < subchunkSize unit chunk index := by
  have below := mul_subchunkCount_pred_lt unit_pos chunk_pos
  rw [subchunkSize]
  split <;> omega

theorem subchunkSize_le (index : ℕ) : subchunkSize unit chunk index ≤ unit := by
  have count_pos := subchunkCount_pos unit_pos chunk_pos
  have above := le_mul_subchunkCount unit_pos chunk_pos
  have split_last : unit * subchunkCount unit chunk =
      unit * (subchunkCount unit chunk - 1) + unit := by
    rw [← Nat.mul_succ, Nat.succ_eq_add_one, Nat.sub_add_cancel count_pos]
  rw [subchunkSize]
  split <;> omega

theorem subchunkStart_chunk (index : ℕ) {part : ℕ} (part_lt : part < subchunkCount unit chunk) :
    subchunkStart unit chunk (index * subchunkCount unit chunk + part) =
      index * chunk + part * unit := by
  have count_pos := subchunkCount_pos unit_pos chunk_pos
  rw [subchunkStart, mul_comm index, Nat.mul_add_div count_pos, Nat.mul_add_mod,
    Nat.div_eq_of_lt part_lt, Nat.mod_eq_of_lt part_lt, add_zero]

theorem subchunkStart_mul (index : ℕ) :
    subchunkStart unit chunk (index * subchunkCount unit chunk) = index * chunk := by
  have start := subchunkStart_chunk unit_pos chunk_pos index
    (subchunkCount_pos unit_pos chunk_pos)
  rwa [add_zero, zero_mul, add_zero] at start

theorem subchunkStart_succ (index : ℕ) :
    subchunkStart unit chunk (index + 1) =
      subchunkStart unit chunk index +
        subchunkSize unit chunk (index % subchunkCount unit chunk) := by
  have count_pos := subchunkCount_pos unit_pos chunk_pos
  have below := mul_subchunkCount_pred_lt unit_pos chunk_pos
  have part_lt := Nat.mod_lt index count_pos
  have split_index := Nat.div_add_mod' index (subchunkCount unit chunk)
  generalize index / subchunkCount unit chunk = whole at split_index
  generalize part_eq : index % subchunkCount unit chunk = part at part_lt split_index
  rw [← split_index, subchunkStart_chunk unit_pos chunk_pos whole part_lt, subchunkSize]
  split
  next inner => rw [add_assoc, subchunkStart_chunk unit_pos chunk_pos whole inner]; ring
  next last =>
    have part_last : part = subchunkCount unit chunk - 1 := by omega
    have next_chunk : whole * subchunkCount unit chunk + part + 1 =
        (whole + 1) * subchunkCount unit chunk := by
      rw [Nat.succ_mul]
      omega
    rw [next_chunk, subchunkStart_mul unit_pos chunk_pos, Nat.succ_mul, part_last,
      mul_comm (subchunkCount unit chunk - 1)]
    omega

theorem subchunkStart_add_mul (index count : ℕ) :
    subchunkStart unit chunk (index + count * subchunkCount unit chunk) =
      subchunkStart unit chunk index + count * chunk := by
  have count_pos := subchunkCount_pos unit_pos chunk_pos
  rw [subchunkStart, subchunkStart, Nat.add_mul_div_right _ _ count_pos, Nat.add_mul_mod_self_right]
  ring

theorem subchunkStart_strictMono : StrictMono (subchunkStart unit chunk) := by
  apply strictMono_nat_of_lt_succ
  intro index
  rw [subchunkStart_succ unit_pos chunk_pos]
  exact Nat.lt_add_of_pos_right (subchunkSize_pos unit_pos chunk_pos _)

/-- The units of one chunk are the digits of the chunk. -/
theorem concatenate_subchunks (value start : ℕ) :
    concatenate unit
        (fun part => bitSlice value (start + part * unit) (subchunkSize unit chunk part))
        (subchunkCount unit chunk) =
      bitSlice value start chunk := by
  have count_pos := subchunkCount_pos unit_pos chunk_pos
  have below := mul_subchunkCount_pred_lt unit_pos chunk_pos
  have whole : ∀ parts < subchunkCount unit chunk,
      concatenate unit
          (fun part => bitSlice value (start + part * unit) (subchunkSize unit chunk part)) parts =
        bitSlice value start (unit * parts) := by
    intro parts
    induction parts with
    | zero => simp [concatenate, bitSlice, Nat.mod_one]
    | succ parts ih =>
        intro parts_lt
        rw [concatenate_succ, ih (by omega), Nat.mul_succ, bitSlice_add, subchunkSize,
          if_pos parts_lt, mul_comm parts unit, add_comm]
  rcases Nat.exists_eq_succ_of_ne_zero count_pos.ne' with ⟨parts, count_eq⟩
  have last : subchunkSize unit chunk parts = chunk - unit * parts := by
    rw [subchunkSize, count_eq, if_neg (Nat.lt_irrefl _), Nat.succ_sub_one]
  rw [count_eq, Nat.succ_sub_one] at below
  rw [count_eq, concatenate_succ, whole parts (by omega), last, mul_comm parts unit,
    add_comm, ← bitSlice_add, Nat.add_sub_cancel' below.le]

end Subchunks

end Xpir
