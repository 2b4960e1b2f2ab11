import Mathlib.Tactic.Ring
import Xpir.Foundations.BitString

/-!
# Words in memory

An array of 64-bit words is read and written word by word, and it is sent byte by byte.
The rows of a table lie one behind the other.
-/

namespace Xpir

section Bytes

/-- The bytes of some words, the lowest byte of each word first. -/
def wordBytes (word : ℕ → ℕ) (byte : ℕ) : UInt8 :=
  UInt8.ofNat (word (byte / 8) >>> (8 * (byte % 8)))

/-- The word at a position of some bytes. -/
def wordAt (bytes : ℕ → UInt8) (index : ℕ) : ℕ :=
  littleEndian (fun k => bytes (8 * index + k)) 8

theorem wordAt_wordBytes (word : ℕ → ℕ) (index : ℕ) :
    wordAt (wordBytes word) index = word index % 2 ^ 64 := by
  rw [wordAt, littleEndian, ← concatenate_bitSlice (by decide : 0 < 8) _ 8]
  apply concatenate_congr
  intro k k_lt
  have quotient : (8 * index + k) / 8 = index := by omega
  have remainder : (8 * index + k) % 8 = k := by omega
  rw [wordBytes, quotient, remainder, UInt8.toNat_ofNat', Nat.shiftRight_eq_div_pow, bitSlice]

theorem wordAt_congr {bytes other : ℕ → UInt8} {count index : ℕ}
    (same : ∀ byte < 8 * count, bytes byte = other byte) (index_lt : index < count) :
    wordAt bytes index = wordAt other index := by
  rw [wordAt, wordAt, littleEndian, littleEndian]
  apply concatenate_congr
  intro k k_lt
  rw [same _ (by omega)]

/-- The same numbers are stored by the same bytes. -/
theorem eq_of_littleEndian_eq {bytes other : ℕ → UInt8} {count : ℕ}
    (same : littleEndian bytes count = littleEndian other count) {byte : ℕ}
    (byte_lt : byte < count) : bytes byte = other byte := by
  have left := bitSlice_littleEndian bytes count byte
  have right := bitSlice_littleEndian other count byte
  rw [if_pos byte_lt] at left right
  rw [← UInt8.toNat_inj, ← left, ← right, same]

end Bytes

section Rows

variable {rows columns : ℕ}

/-- The words of a table, row by row. -/
def rowWord (columns : ℕ) (entry : Fin rows → ℕ → ℕ) (index : ℕ) : ℕ :=
  if inside : index / columns < rows then entry ⟨index / columns, inside⟩ (index % columns) else 0

theorem rowPosition_lt (row : Fin rows) {column : ℕ} (column_lt : column < columns) :
    row * columns + column < rows * columns := by
  calc row * columns + column < (row + 1) * columns := by
        rw [Nat.succ_mul]
        exact Nat.add_lt_add_left column_lt _
    _ ≤ rows * columns := Nat.mul_le_mul_right _ row.isLt

theorem rowWord_position (entry : Fin rows → ℕ → ℕ) (row : Fin rows) {column : ℕ}
    (column_lt : column < columns) : rowWord columns entry (row * columns + column) =
      entry row column := by
  have columns_pos : 0 < columns := Nat.zero_lt_of_lt column_lt
  have quotient : (row * columns + column) / columns = row := by
    rw [mul_comm, Nat.mul_add_div columns_pos, Nat.div_eq_of_lt column_lt, Nat.add_zero]
  have remainder : (row * columns + column) % columns = column := by
    rw [mul_comm, Nat.mul_add_mod, Nat.mod_eq_of_lt column_lt]
  rw [rowWord, dif_pos (by rw [quotient]; exact row.isLt)]
  simp only [quotient, remainder]

theorem rowWord_lt {bound : ℕ} (bound_pos : 0 < bound) {entry : Fin rows → ℕ → ℕ}
    (entry_lt : ∀ row column, entry row column < bound) (index : ℕ) :
    rowWord columns entry index < bound := by
  rw [rowWord]
  split
  next => exact entry_lt _ _
  next => exact bound_pos

end Rows

section Stores

/-- The memory after some words have been written from an offset on. -/
def storeWords (memory : ℕ → ℕ) (offset size : ℕ) (word : ℕ → ℕ) (index : ℕ) : ℕ :=
  if offset ≤ index ∧ index < offset + size then word (index - offset) else memory index

theorem storeWords_inside (memory : ℕ → ℕ) {size : ℕ} (word : ℕ → ℕ) (block : ℕ) {index : ℕ}
    (index_lt : index < size) :
    storeWords memory (block * size) size word (block * size + index) = word index := by
  rw [storeWords, if_pos (by omega), Nat.add_sub_cancel_left]

/-- Writing a block does not change the other blocks. -/
theorem storeWords_other (memory : ℕ → ℕ) {size : ℕ} (word : ℕ → ℕ) {block other index : ℕ}
    (differ : other ≠ block) (index_lt : index < size) :
    storeWords memory (block * size) size word (other * size + index) =
      memory (other * size + index) := by
  have apart : ¬ (block * size ≤ other * size + index ∧
      other * size + index < block * size + size) := by
    rintro ⟨above, below⟩
    rcases Nat.lt_or_gt_of_ne differ with before | after
    · have next := Nat.mul_le_mul_right size (Nat.succ_le_of_lt before)
      rw [Nat.succ_mul] at next
      omega
    · have next := Nat.mul_le_mul_right size (Nat.succ_le_of_lt after)
      rw [Nat.succ_mul] at next
      omega
  rw [storeWords, if_neg apart]

end Stores

end Xpir
