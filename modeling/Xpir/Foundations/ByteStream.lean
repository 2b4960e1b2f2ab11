import Mathlib.Algebra.Order.Ring.Nat
import Mathlib.Data.List.GetD
import Mathlib.Data.List.TakeDrop

/-!
# Streams of bytes

Two parties exchange integers and blocks of bytes over a connection. A read takes a
given number of bytes from the front of the stream, and fails if the stream ends
before. Reading with the size that was written gives back what was written, with
whatever follows it in the stream.
-/

namespace Xpir

/-- The lowest bytes of a number, the least significant first. -/
def encodeBytes : ℕ → ℕ → List UInt8
  | 0, _ => []
  | width + 1, value => UInt8.ofNat value :: encodeBytes width (value / 256)

/-- The number that some bytes stand for. -/
def decodeBytes : List UInt8 → ℕ
  | [] => 0
  | byte :: bytes => byte.toNat + 256 * decodeBytes bytes

@[simp]
theorem length_encodeBytes (width value : ℕ) : (encodeBytes width value).length = width := by
  induction width generalizing value with
  | zero => rfl
  | succ width ih => rw [encodeBytes, List.length_cons, ih]

theorem decodeBytes_encodeBytes (width value : ℕ) :
    decodeBytes (encodeBytes width value) = value % 256 ^ width := by
  induction width generalizing value with
  | zero => rw [encodeBytes, decodeBytes, pow_zero, Nat.mod_one]
  | succ width ih =>
      rw [encodeBytes, decodeBytes, ih, pow_succ', Nat.mod_mul, UInt8.toNat_ofNat']

theorem encodeBytes_decodeBytes (bytes : List UInt8) :
    encodeBytes bytes.length (decodeBytes bytes) = bytes := by
  induction bytes with
  | nil => rfl
  | cons byte bytes ih =>
      have byte_lt := byte.toNat_lt
      have rest : (byte.toNat + 256 * decodeBytes bytes) / 256 = decodeBytes bytes := by omega
      have first : UInt8.ofNat (byte.toNat + 256 * decodeBytes bytes) = byte := by
        rw [← UInt8.toNat_inj, UInt8.toNat_ofNat']
        omega
      rw [List.length_cons, decodeBytes, encodeBytes, rest, ih, first]

/-! ## Blocks of one width -/

theorem length_flatMap_blocks (count width : ℕ) (blocks : ℕ → ℕ → UInt8) :
    ((List.range count).flatMap fun i => (List.range width).map (blocks i)).length =
      count * width := by
  induction count with
  | zero => simp
  | succ count ih =>
      rw [List.range_succ, List.flatMap_append, List.length_append, ih, Nat.succ_mul]
      simp

/-- The bytes of successive blocks are the bytes of the whole. -/
theorem flatMap_blocks_iff {count width : ℕ} {blocks : ℕ → ℕ → UInt8} {bytes : ℕ → UInt8} :
    (List.range count).flatMap (fun i => (List.range width).map (blocks i)) =
        (List.range (count * width)).map bytes ↔
      ∀ i < count, ∀ byte < width, blocks i byte = bytes (i * width + byte) := by
  induction count with
  | zero => simp
  | succ count ih =>
      have whole : (List.range ((count + 1) * width)).map bytes =
          (List.range (count * width)).map bytes ++
            (List.range width).map (fun byte => bytes (count * width + byte)) := by
        rw [Nat.succ_mul, List.range_add, List.map_append, List.map_map]
        rfl
      rw [whole, List.range_succ, List.flatMap_append, List.flatMap_singleton]
      constructor
      · intro same i i_lt byte byte_lt
        rcases List.append_inj same (by rw [length_flatMap_blocks]; simp) with ⟨before, last⟩
        rcases Nat.lt_succ_iff_lt_or_eq.mp i_lt with earlier | rfl
        · exact ih.mp before i earlier byte byte_lt
        · exact List.map_inj_left.mp last byte (List.mem_range.mpr byte_lt)
      · intro agree
        rw [ih.mpr fun i i_lt => agree i (Nat.lt_succ_of_lt i_lt)]
        congr 1
        apply List.map_congr_left
        intro byte byte_mem
        exact agree count (Nat.lt_succ_self count) byte (List.mem_range.mp byte_mem)

theorem flatMap_blocks {count width : ℕ} {blocks : ℕ → ℕ → UInt8} {bytes : ℕ → UInt8}
    (agree : ∀ i < count, ∀ byte < width, blocks i byte = bytes (i * width + byte)) :
    (List.range count).flatMap (fun i => (List.range width).map (blocks i)) =
      (List.range (count * width)).map bytes :=
  flatMap_blocks_iff.mpr agree

theorem map_range_getD (data : List UInt8) {total : ℕ} (fits : data.length ≤ total) :
    (List.range total).map (fun byte => data.getD byte 0) =
      data ++ List.replicate (total - data.length) 0 := by
  apply List.ext_getElem
  · simp [fits]
  · intro byte byte_lt _
    rw [List.getElem_map, List.getElem_range, List.getElem_append]
    split
    next inside => exact List.getD_eq_getElem data 0 inside
    next outside =>
      rw [List.getElem_replicate]
      exact List.getD_eq_default data 0 (not_lt.mp outside)

/-! ## Reading and writing -/

/-- A read of the given number of bytes, and what is left of the stream. -/
def readBytes (size : ℕ) (input : List UInt8) : Option (List UInt8 × List UInt8) :=
  if size ≤ input.length then some (input.take size, input.drop size) else none

theorem readBytes_append {bytes : List UInt8} {size : ℕ} (length_eq : bytes.length = size)
    (rest : List UInt8) : readBytes size (bytes ++ rest) = some (bytes, rest) := by
  subst length_eq
  rw [readBytes, if_pos (by simp), List.take_left, List.drop_left]

/-- An `int`, as both parties hold it in memory. -/
def writeInt (word : UInt32) : List UInt8 := encodeBytes 4 word.toNat

def readInt (input : List UInt8) : Option (UInt32 × List UInt8) :=
  (readBytes 4 input).map fun read => (UInt32.ofNat (decodeBytes read.1), read.2)

@[simp]
theorem length_writeInt (word : UInt32) : (writeInt word).length = 4 := length_encodeBytes ..

@[simp]
theorem readInt_writeInt (word : UInt32) (rest : List UInt8) :
    readInt (writeInt word ++ rest) = some (word, rest) := by
  have word_lt : word.toNat < 256 ^ 4 := word.toNat_lt
  rw [readInt, readBytes_append (length_writeInt word), Option.map_some, writeInt,
    decodeBytes_encodeBytes, Nat.mod_eq_of_lt word_lt, UInt32.ofNat_toNat]

theorem readInt_isSome_iff (input : List UInt8) : (readInt input).isSome ↔ 4 ≤ input.length := by
  rw [readInt, readBytes]
  split <;> simp_all

theorem length_of_readInt {input rest : List UInt8} {word : UInt32}
    (reads : readInt input = some (word, rest)) : input.length = rest.length + 4 := by
  rw [readInt, readBytes] at reads
  split at reads
  next enough =>
    simp only [Option.map_some, Option.some.injEq, Prod.mk.injEq] at reads
    rw [← reads.2, List.length_drop]
    omega
  next => exact absurd reads (by simp)

end Xpir
