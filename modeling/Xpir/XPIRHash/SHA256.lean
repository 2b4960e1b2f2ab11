import Mathlib.Tactic.Common
import Xpir.XPIRHash.SymmetricEncryption

/-!
# Tags of variants

A variant is stored under the first bits of its HMAC. The length that is passed with the key
is the size of the pointer to it, so that all but the first eight bytes of the key are left
out. `hash_secret` says that no tag is computed with the whole key, and which keys the tags
tell apart. HMAC itself fills a short key with null bytes, so that a key of eight bytes, followed
by null bytes only, is the one kind of key that the missing bytes do not harm.
-/

namespace Xpir.SHA256

open PIRClient (bitsetToString ucharToBinary ucharToBinary_eq)

/-- The secret key, as it is read from its file. -/
abbrev Key := Vector UInt8 32

abbrev Digest := Vector UInt8 32

/-- `DATA_SIZE`: the bits of a tag. -/
def dataSize : ℕ := 48

/-- What `sizeof` gives for a pointer. -/
def sizeofPointer : ℕ := 8

section Tags

variable (hmac : List UInt8 → List UInt8 → Digest)

/-- The message ends with the null byte behind the string. -/
def mac256 (key : Key) (str : List UInt8) : Digest :=
  hmac (key.toList.take sizeofPointer) (str ++ [0])

def hash (key : Key) (str : List UInt8) : List Char :=
  ucharToBinary (mac256 hmac key str).toList dataSize

/-- The tag consists of the first bits of the HMAC with the whole key. -/
def HashesWithKey (key : Key) (str : List UInt8) : Prop :=
  hash hmac key str = (((hmac key.toList (str ++ [0])).toList.flatMap bitsetToString).take dataSize)

end Tags

/-- No string has different tags under the two keys, whatever the function is. -/
def SameTags (key other : Key) : Prop :=
  ∀ (hmac : List UInt8 → List UInt8 → Digest) (str : List UInt8),
    hash hmac key str = hash hmac other str

/-- What HMAC does with a key that is shorter than a block: it continues it with null bytes. -/
def padded (digest : List UInt8 → List UInt8 → Digest) (key message : List UInt8) : Digest :=
  digest (key.rightpad 64 0) message

/-- A function that tells one of its keys from all others. -/
def distinguisher (marked key : List UInt8) (_message : List UInt8) : Digest :=
  if key = marked then Vector.replicate 32 1 else Vector.replicate 32 0

theorem ucharToBinary_take {str : List UInt8} {bytes : ℕ} (bytes_le : bytes ≤ str.length) :
    ucharToBinary str (8 * bytes) = (str.flatMap bitsetToString).take (8 * bytes) := by
  have prefix_length : ((str.take bytes).flatMap bitsetToString).length = 8 * bytes := by
    simp [List.length_flatMap, List.map_const', bytes_le, Nat.mul_comm]
  have same : ucharToBinary str (8 * bytes) = ucharToBinary (str.take bytes) (8 * bytes) := by
    rw [ucharToBinary, ucharToBinary, Nat.mul_div_cancel_left _ (by decide)]
    apply congrArg List.flatten
    apply List.map_congr_left
    intro i i_mem
    have i_lt := List.mem_range.mp i_mem
    simp [List.getD_eq_getElem?_getD, i_lt]
  have shorter : (str.take bytes).length = bytes := by rw [List.length_take, min_eq_left bytes_le]
  calc ucharToBinary str (8 * bytes)
      = (str.take bytes).flatMap bitsetToString := by
        rw [same]
        nth_rewrite 2 [← shorter]
        exact ucharToBinary_eq _
    _ = ((str.take bytes ++ str.drop bytes).flatMap bitsetToString).take (8 * bytes) := by
        rw [List.flatMap_append, ← prefix_length, List.take_left]
    _ = (str.flatMap bitsetToString).take (8 * bytes) := by rw [List.take_append_drop]

/-- It suffices that the two keys have the same digest. -/
theorem hashesWithKey_of_eq {hmac : List UInt8 → List UInt8 → Digest} {key : Key}
    {str : List UInt8}
    (same : hmac (key.toList.take sizeofPointer) (str ++ [0]) = hmac key.toList (str ++ [0])) :
    HashesWithKey hmac key str := by
  rw [HashesWithKey, hash, mac256, same]
  exact ucharToBinary_take (show 6 ≤ _ by rw [Vector.length_toList]; decide)

theorem hash_distinguisher (marked : List UInt8) (key : Key) (str : List UInt8) :
    hash (distinguisher marked) key str =
      if key.toList.take sizeofPointer = marked then ucharToBinary (List.replicate 32 1) dataSize
      else ucharToBinary (List.replicate 32 0) dataSize := by
  rw [hash, mac256, distinguisher]
  split <;> rw [Vector.toList_replicate]

/-- The function is called with eight bytes of the key, and not with all of them. -/
theorem not_hashesWithKey (key : Key) (str : List UInt8) :
    ¬ ∀ hmac, HashesWithKey hmac key str := by
  intro all
  have tag := all (distinguisher (key.toList.take sizeofPointer))
  have shorter : key.toList ≠ key.toList.take sizeofPointer := by
    intro same
    have lengths := congrArg List.length same
    rw [List.length_take, Vector.length_toList] at lengths
    exact absurd lengths (by decide)
  rw [HashesWithKey, hash_distinguisher, if_pos rfl, distinguisher, if_neg shorter,
    Vector.toList_replicate] at tag
  exact absurd tag (by decide)

theorem sameTags_iff (key other : Key) :
    SameTags key other ↔ key.toList.take sizeofPointer = other.toList.take sizeofPointer := by
  constructor
  · intro same
    by_contra different
    have tags := same (distinguisher (key.toList.take sizeofPointer)) []
    rw [hash_distinguisher, hash_distinguisher, if_pos rfl, if_neg (Ne.symm different)] at tags
    exact absurd tags (by decide)
  · intro same hmac str
    rw [hash, hash, mac256, mac256, same]

theorem rightpad_take_eq_iff (key : Key) :
    (key.toList.take sizeofPointer).rightpad 64 0 = key.toList.rightpad 64 0 ↔
      key.toList.drop sizeofPointer = List.replicate 24 0 := by
  have key_length : key.toList.length = 32 := Vector.length_toList
  have take_length : (key.toList.take sizeofPointer).length = 8 := by
    rw [List.length_take, key_length]
    rfl
  have whole : key.toList.rightpad 64 0 =
      key.toList.take sizeofPointer ++
        (key.toList.drop sizeofPointer ++ List.replicate 32 0) := by
    rw [← List.append_assoc, List.take_append_drop, List.rightpad, key_length]
  have short : (key.toList.take sizeofPointer).rightpad 64 0 =
      key.toList.take sizeofPointer ++ (List.replicate 24 0 ++ List.replicate 32 0) := by
    rw [List.rightpad, take_length, List.replicate_append_replicate]
  rw [whole, short, List.append_cancel_left_eq, List.append_cancel_right_eq, eq_comm]

/-- A padding function has the tag of the whole key if the missing bytes are null anyway. -/
theorem hashesWithKey_padded_iff (key : Key) (str : List UInt8) :
    (∀ digest, HashesWithKey (padded digest) key str) ↔
      key.toList.drop sizeofPointer = List.replicate 24 0 := by
  rw [← rightpad_take_eq_iff]
  constructor
  · intro all
    by_contra different
    have tag := all (distinguisher ((key.toList.take sizeofPointer).rightpad 64 0))
    rw [HashesWithKey, hash, mac256, padded, padded, distinguisher, distinguisher, if_pos rfl,
      if_neg (Ne.symm different), Vector.toList_replicate, Vector.toList_replicate] at tag
    exact absurd tag (by decide)
  · intro same digest
    exact hashesWithKey_of_eq (by rw [padded, padded, same])

/--
No key and no string have the tag of the whole key for every HMAC function. For the functions
that fill their key with null bytes they have it exactly if all bytes behind the eighth are null.
Two keys give the same tags exactly if they agree in the first eight bytes.
-/
theorem hash_secret (key other : Key) (str : List UInt8) :
    (¬ ∀ hmac, HashesWithKey hmac key str) ∧
      ((∀ digest, HashesWithKey (padded digest) key str) ↔
        key.toList.drop sizeofPointer = List.replicate 24 0) ∧
      (SameTags key other ↔ key.toList.take sizeofPointer = other.toList.take sizeofPointer) :=
  ⟨not_hashesWithKey key str, hashesWithKey_padded_iff key str, sameTags_iff key other⟩

/-- The key whose last byte is one and whose other bytes are null. -/
def lastByteKey : Key := (Vector.replicate 32 0).set 31 1

/-- The values of HMAC-SHA256 for `lastByteKey` and for its first eight bytes. -/
def hmacSHA256 (key message : List UInt8) : Digest :=
  if key = List.replicate 8 0 ∧ message = [0] then
    #v[102, 32, 179, 31, 41, 36, 184, 192, 21, 71, 116, 95, 65, 130, 93, 50,
      35, 54, 248, 62, 187, 19, 215, 35, 103, 135, 137, 213, 84, 216, 163, 239]
  else if key = lastByteKey.toList ∧ message = [0] then
    #v[0, 235, 132, 131, 5, 78, 180, 160, 217, 40, 119, 12, 132, 188, 196, 136,
      215, 76, 50, 59, 237, 28, 79, 18, 13, 131, 203, 60, 197, 217, 68, 187]
  else Vector.replicate 32 0

/-- The tag of the empty string begins with the digits of 102, and should begin with null bits. -/
theorem not_hashesWithKey_lastByte : ¬ HashesWithKey hmacSHA256 lastByteKey [] := by
  rw [HashesWithKey]
  decide

end Xpir.SHA256
