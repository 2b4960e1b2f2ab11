import Mathlib.Data.List.Induction
import Mathlib.Data.Nat.Bitwise
import Xpir.Foundations.Loop
import Xpir.XPIRHash.Socket

/-!
# Encrypted slots

The client encrypts every slot of the database before it uploads it, and the element
it subtracts from a reply, with AES in counter mode. The nonce of a file is followed
by the number of the slot, which is counted while the file is sent and computed from
the position of the entry when it is queried or decrypted. The block cipher is a
parameter here.
-/

namespace Xpir.PIRClient

open Socket

section BitStrings

/-- A bit at its place in a byte, the first one being the highest. -/
def setBit (bit : Bool) (i : ℕ) : UInt8 := (if bit then 1 else (0 : UInt8)) <<< UInt8.ofNat (7 - i)

/-- One byte for every eight characters of a string of bits. -/
def binaryToUchar (line : List Char) : List UInt8 :=
  (List.range (line.length / 8)).map fun j =>
    forLoop 8 (fun i byte => byte ||| setBit (decide (line.getD (i + j * 8) '0' = '1')) i) 0

/-- `bitset<8>::to_string`. -/
def bitsetToString (byte : UInt8) : List Char :=
  (List.range 8).map fun i => if byte.toNat.testBit (7 - i) then '1' else '0'

def ucharToBinary (str : List UInt8) (curr_bits : ℕ) : List Char :=
  (List.range (curr_bits / 8)).flatMap fun i => bitsetToString (str.getD i 0)

/-- A string of bits that fills the given number of bytes. -/
@[ext]
structure BitString (bytes : ℕ) where
  chars : List Char
  length_eq : chars.length = 8 * bytes
  binary : ∀ c ∈ chars, c = '0' ∨ c = '1'

theorem testBit_setBit {bit : Bool} {i k : ℕ} (i_lt : i < 8) (k_lt : k < 8) :
    (setBit bit i).toNat.testBit (7 - k) = (bit && decide (i = k)) := by
  cases bit with
  | false => simp [setBit]
  | true =>
      have shift : (7 - i) % 256 % 8 = 7 - i := by omega
      have power : (setBit true i).toNat = 2 ^ (7 - i) := by
        simp only [setBit, if_true, UInt8.toNat_shiftLeft, UInt8.toNat_ofNat']
        rw [show 2 ^ 8 = 256 from rfl, shift, UInt8.toNat_one, Nat.shiftLeft_eq, Nat.one_mul]
        have power_lt : 2 ^ (7 - i) < 2 ^ 8 := Nat.pow_lt_pow_right (by decide) (by omega)
        exact Nat.mod_eq_of_lt power_lt
      rw [power, Nat.testBit_two_pow, Bool.true_and, decide_eq_decide]
      omega

theorem testBit_forLoop_setBit (bits : ℕ → Bool) {count k : ℕ} (count_le : count ≤ 8)
    (k_lt : k < 8) :
    (forLoop count (fun i byte => byte ||| setBit (bits i) i) 0).toNat.testBit (7 - k) =
      (decide (k < count) && bits k) := by
  induction count with
  | zero => simp [forLoop_zero]
  | succ count ih =>
      rw [forLoop_succ, UInt8.toNat_or, Nat.testBit_or, ih (by omega),
        testBit_setBit (by omega) k_lt]
      rcases Nat.lt_trichotomy k count with before | rfl | after
      · simp [before, before.ne', Nat.lt_succ_of_lt before]
      · simp
      · simp [after.ne, after.not_gt, (Nat.succ_le_of_lt after).not_gt]

@[simp]
theorem length_binaryToUchar (line : List Char) :
    (binaryToUchar line).length = line.length / 8 := by
  rw [binaryToUchar, List.length_map, List.length_range]

@[simp]
theorem length_bitsetToString (byte : UInt8) : (bitsetToString byte).length = 8 := by
  rw [bitsetToString, List.length_map, List.length_range]

theorem binaryToUchar_append {left right : List Char} (whole : 8 ∣ left.length) :
    binaryToUchar (left ++ right) = binaryToUchar left ++ binaryToUchar right := by
  rcases whole with ⟨count, count_eq⟩
  have bytes_eq : (left ++ right).length / 8 = count + right.length / 8 := by
    rw [List.length_append]
    omega
  have left_eq : left.length / 8 = count := by omega
  rw [binaryToUchar, bytes_eq, List.range_add, List.map_append, List.map_map, binaryToUchar,
    binaryToUchar, left_eq]
  apply congrArg₂
  · apply List.map_congr_left
    intro j j_mem
    have j_lt := List.mem_range.mp j_mem
    apply forLoop_congr
    intro i i_lt byte
    rw [List.getD_append _ _ _ _ (show i + j * 8 < left.length by omega)]
  · apply List.map_congr_left
    intro j _
    apply forLoop_congr
    intro i _ byte
    rw [List.getD_append_right _ _ _ _ (show left.length ≤ i + (count + j) * 8 by omega),
      show i + (count + j) * 8 - left.length = i + j * 8 by omega]

theorem ucharToBinary_eq (str : List UInt8) :
    ucharToBinary str (8 * str.length) = str.flatMap bitsetToString := by
  rw [ucharToBinary, Nat.mul_div_cancel_left _ (by decide), ← List.flatMap_map]
  apply congrArg (List.flatMap bitsetToString)
  apply List.ext_getElem (by simp)
  intro i i_lt i_lt'
  rw [List.getElem_map, List.getElem_range, List.getD_eq_getElem _ _ i_lt']

theorem bitsetToString_binaryToUchar {line : List Char} (length_eq : line.length = 8)
    (binary : ∀ c ∈ line, c = '0' ∨ c = '1') :
    (binaryToUchar line).flatMap bitsetToString = line := by
  rw [binaryToUchar, length_eq, Nat.div_self (by decide), List.range_one, List.map_singleton,
    List.flatMap_singleton]
  apply List.ext_getElem (by simp [length_eq])
  intro k k_lt k_lt'
  rw [length_bitsetToString] at k_lt
  simp only [bitsetToString, List.getElem_map, List.getElem_range,
    testBit_forLoop_setBit _ le_rfl k_lt, k_lt, decide_true, Bool.true_and, decide_eq_true_eq,
    Nat.zero_mul, Nat.add_zero, List.getD_eq_getElem _ _ k_lt']
  rcases binary _ (List.getElem_mem k_lt') with zero | one
  · simp [zero]
  · simp [one]

theorem flatMap_binaryToUchar {chars : List Char} {bytes : ℕ}
    (length_eq : chars.length = 8 * bytes) (binary : ∀ c ∈ chars, c = '0' ∨ c = '1') :
    (binaryToUchar chars).flatMap bitsetToString = chars := by
  induction bytes generalizing chars with
  | zero =>
      rw [List.length_eq_zero_iff.mp length_eq]
      rfl
  | succ bytes ih =>
      have first_length : (chars.take 8).length = 8 := by
        rw [List.length_take]
        omega
      have first := bitsetToString_binaryToUchar first_length
        fun c c_mem => binary c (List.mem_of_mem_take c_mem)
      have later : (binaryToUchar (chars.drop 8)).flatMap bitsetToString = chars.drop 8 :=
        ih (by rw [List.length_drop]; omega) fun c c_mem => binary c (List.mem_of_mem_drop c_mem)
      calc (binaryToUchar chars).flatMap bitsetToString
          = (binaryToUchar (chars.take 8 ++ chars.drop 8)).flatMap bitsetToString := by
            rw [List.take_append_drop]
        _ = chars.take 8 ++ chars.drop 8 := by
            rw [binaryToUchar_append (by rw [first_length]), List.flatMap_append, first, later]
        _ = chars := List.take_append_drop 8 chars

variable {bytes : ℕ}

theorem BitString.length_uchar (string : BitString bytes) :
    (binaryToUchar string.chars).length = bytes := by
  rw [length_binaryToUchar, string.length_eq, Nat.mul_div_cancel_left _ (by decide)]

/-- Converting a string of bits to bytes and back changes nothing. -/
theorem BitString.ucharToBinary_uchar (string : BitString bytes) :
    ucharToBinary (binaryToUchar string.chars) (8 * bytes) = string.chars := by
  have whole := ucharToBinary_eq (binaryToUchar string.chars)
  rw [string.length_uchar] at whole
  rw [whole, flatMap_binaryToUchar string.length_eq string.binary]

theorem BitString.uchar_injective {left right : BitString bytes}
    (same : binaryToUchar left.chars = binaryToUchar right.chars) : left = right := by
  apply BitString.ext
  rw [← left.ucharToBinary_uchar, same, right.ucharToBinary_uchar]

end BitStrings

section CounterMode

/-- What AES takes and gives, in the order of the bytes in memory. -/
abbrev Block := Vector UInt8 16

/-- The bytes of a number, the highest first. -/
def pack64 (val : UInt64) : Vector UInt8 8 :=
  #v[((val &&& 0xff00000000000000) >>> 56).toUInt8, ((val &&& 0x00ff000000000000) >>> 48).toUInt8,
    ((val &&& 0x0000ff0000000000) >>> 40).toUInt8, ((val &&& 0x000000ff00000000) >>> 32).toUInt8,
    ((val &&& 0x00000000ff000000) >>> 24).toUInt8, ((val &&& 0x0000000000ff0000) >>> 16).toUInt8,
    ((val &&& 0x000000000000ff00) >>> 8).toUInt8, (val &&& 0x00000000000000ff).toUInt8]

/-- `m_iv` for the given position. -/
def ivAt (nonce : Vector UInt8 8) (pos : UInt64) : Block := nonce ++ pack64 pos

/-- The block that is encrypted for the given block of the keystream. -/
def counterBlock (iv : Block) (index : ℕ) : Block :=
  ⟨(encodeBytes 16 (decodeBytes iv.toList.reverse + index)).reverse.toArray, by simp⟩

variable (aes : Block → Block) (nonce : Vector UInt8 8)

def keystream (iv : Block) (i : ℕ) : UInt8 :=
  (aes (counterBlock iv (i / 16))).get ⟨i % 16, Nat.mod_lt i (by decide)⟩

def encrypt (plaintext : List UInt8) (pos : UInt64) : List UInt8 :=
  plaintext.mapIdx fun i byte => byte ^^^ keystream aes (ivAt nonce pos) i

def decrypt (ciphertext : List UInt8) (pos : UInt64) : List UInt8 :=
  ciphertext.mapIdx fun i byte => byte ^^^ keystream aes (ivAt nonce pos) i

/-- The blocks that are encrypted for a text of the given length. -/
def counterBlocks (pos : UInt64) (length : ℕ) : List Block :=
  (List.range ((length + 15) / 16)).map (counterBlock (ivAt nonce pos))

variable {aes nonce}

@[simp]
theorem length_encrypt (plaintext : List UInt8) (pos : UInt64) :
    (encrypt aes nonce plaintext pos).length = plaintext.length := by
  rw [encrypt, List.length_mapIdx]

theorem decrypt_encrypt (plaintext : List UInt8) (pos : UInt64) :
    decrypt aes nonce (encrypt aes nonce plaintext pos) pos = plaintext := by
  apply List.ext_getElem (by simp [decrypt])
  intro i i_lt _
  simp only [decrypt, encrypt, List.getElem_mapIdx, UInt8.xor_assoc, UInt8.xor_self,
    UInt8.xor_zero]

theorem encrypt_inj {left right : List UInt8} {pos : UInt64} :
    encrypt aes nonce left pos = encrypt aes nonce right pos ↔ left = right := by
  constructor
  · intro same
    rw [← @decrypt_encrypt aes nonce left pos, same, decrypt_encrypt]
  · rintro rfl
    rfl

theorem counterBlock_zero (iv : Block) : counterBlock iv 0 = iv := by
  have bytes := encodeBytes_decodeBytes iv.toList.reverse
  rw [List.length_reverse, Vector.length_toList] at bytes
  apply Vector.toList_inj.mp
  simp only [counterBlock, Nat.add_zero, bytes, Vector.toList_mk, List.reverse_reverse]

/-- The whole text is encrypted with one block. -/
theorem encrypt_eq {plaintext : List UInt8} (short : plaintext.length ≤ 16) (pos : UInt64) :
    encrypt aes nonce plaintext pos =
      List.zipWith (· ^^^ ·) plaintext (aes (ivAt nonce pos)).toList := by
  apply List.ext_getElem
  · simp [encrypt, short]
  intro i i_lt _
  rw [length_encrypt] at i_lt
  have block : i / 16 = 0 := by omega
  have byte : i % 16 = i := by omega
  simp only [encrypt, List.getElem_mapIdx, keystream, block, byte, counterBlock_zero,
    List.getElem_zipWith, Vector.getElem_toList]
  rfl

theorem pack64_byte {val mask : UInt64} {shift : ℕ} (shift_lt : shift < 64)
    (mask_eq : mask.toNat = 255 <<< shift) :
    ((val &&& mask) >>> UInt64.ofNat shift).toUInt8 = UInt8.ofNat (val.toNat / 2 ^ shift) := by
  rw [← UInt8.toNat_inj, UInt64.toNat_toUInt8, UInt64.toNat_shiftRight, UInt64.toNat_and,
    UInt64.toNat_ofNat_of_lt' (shift_lt.trans (by decide)), Nat.mod_eq_of_lt shift_lt, mask_eq,
    Nat.shiftRight_and_distrib, Nat.shiftLeft_shiftRight, UInt8.toNat_ofNat',
    Nat.shiftRight_eq_div_pow]
  have low := Nat.and_two_pow_sub_one_eq_mod (val.toNat / 2 ^ shift) 8
  rw [show 2 ^ 8 - 1 = 255 from rfl] at low
  rw [low, Nat.mod_mod]

theorem pack64_toList (val : UInt64) :
    (pack64 val).toList = (encodeBytes 8 val.toNat).reverse := by
  have lowest : (val &&& 0xff).toUInt8 = UInt8.ofNat val.toNat := by
    rw [← UInt8.toNat_inj, UInt64.toNat_toUInt8, UInt64.toNat_and, UInt8.toNat_ofNat']
    have low := Nat.and_two_pow_sub_one_eq_mod val.toNat 8
    exact (congrArg (· % 256) low).trans (Nat.mod_mod _ _)
  calc (pack64 val).toList
      = [UInt8.ofNat (val.toNat / 2 ^ 56), UInt8.ofNat (val.toNat / 2 ^ 48),
          UInt8.ofNat (val.toNat / 2 ^ 40), UInt8.ofNat (val.toNat / 2 ^ 32),
          UInt8.ofNat (val.toNat / 2 ^ 24), UInt8.ofNat (val.toNat / 2 ^ 16),
          UInt8.ofNat (val.toNat / 2 ^ 8), UInt8.ofNat val.toNat] := by
        rw [← @pack64_byte val 0xff00000000000000 56 (by decide) rfl,
          ← @pack64_byte val 0x00ff000000000000 48 (by decide) rfl,
          ← @pack64_byte val 0x0000ff0000000000 40 (by decide) rfl,
          ← @pack64_byte val 0x000000ff00000000 32 (by decide) rfl,
          ← @pack64_byte val 0x00000000ff000000 24 (by decide) rfl,
          ← @pack64_byte val 0x0000000000ff0000 16 (by decide) rfl,
          ← @pack64_byte val 0x000000000000ff00 8 (by decide) rfl, ← lowest]
        rfl
    _ = (encodeBytes 8 val.toNat).reverse := by
        simp only [encodeBytes, Nat.div_div_eq_div_mul]
        rfl

theorem ivAt_injective : Function.Injective (ivAt nonce) := by
  intro left right same
  have packed : (pack64 left).toList = (pack64 right).toList := by
    have lists := congrArg Vector.toList same
    rw [ivAt, ivAt, Vector.toList_append, Vector.toList_append] at lists
    exact List.append_cancel_left lists
  rw [pack64_toList, pack64_toList, List.reverse_inj] at packed
  have values := congrArg decodeBytes packed
  rw [decodeBytes_encodeBytes, decodeBytes_encodeBytes] at values
  have left_lt := left.toNat_lt
  have right_lt := right.toNat_lt
  apply UInt64.toNat_inj.mp
  omega

/-- Different positions are encrypted with different blocks. -/
theorem disjoint_counterBlocks {left right : UInt64} (apart : left ≠ right) {length : ℕ}
    (short : length ≤ 16) :
    (counterBlocks nonce left length).Disjoint (counterBlocks nonce right length) := by
  have first : ∀ {pos block}, block ∈ counterBlocks nonce pos length → block = ivAt nonce pos := by
    intro pos block block_mem
    rcases List.mem_map.mp block_mem with ⟨index, index_mem, rfl⟩
    have index_lt := List.mem_range.mp index_mem
    rw [show index = 0 by omega, counterBlock_zero]
  intro block in_left in_right
  exact apart (ivAt_injective ((first in_left).symm.trans (first in_right)))

end CounterMode

section Transmission

variable (aes : Block → Block) (nonce : Vector UInt8 8) (encrypted : Bool)
variable (padding_size data_hash_size : ℕ)

def padData (input : List Char) (max_bits : ℕ) : List Char :=
  List.replicate (max_bits - input.length) '0' ++ input

/-- One slot of some memory. -/
def slotAt (data_hash_bytes : ℕ) (memory : List UInt8) (j : ℕ) : List UInt8 :=
  (memory.drop (data_hash_bytes * j)).take data_hash_bytes

/-- The number of the next slot, and the messages sent so far. -/
abbrev Sending := UInt64 × List (List UInt8)

/-- The inner loop of `sendData`. -/
def sendEntry (entry : List UInt8) (sending : Sending) : Sending :=
  let data_hash_bytes := data_hash_size / 8
  if !encrypted then (sending.1, sending.2 ++ [entry])
  else
    forLoop padding_size (fun j sending =>
      let ciphertext := encrypt aes nonce (slotAt data_hash_bytes entry j) sending.1
      (sending.1 + 1, sending.2 ++ [ciphertext])) sending

/-- The messages that are sent for a file. -/
def sendData (catalog : List (List Char)) : List (List UInt8) :=
  let max_bytesize := padding_size * data_hash_size / 8
  let sizes := [sendInt (UInt32.ofNat max_bytesize), sendInt (UInt32.ofNat catalog.length)]
  (catalog.foldl (fun sending text =>
    let entry := binaryToUchar (padData text (max_bytesize * 8))
    sendEntry aes nonce encrypted padding_size data_hash_size entry sending) (0, sizes)).2

/-- What is subtracted from a reply: one hash in all slots. -/
def generateRequest (pos : UInt64) (variant_hash : List Char) (data_hash_bytes : ℕ) : List UInt8 :=
  (List.range padding_size).flatMap fun i =>
    let variant := (binaryToUchar variant_hash).take data_hash_bytes
    if encrypted then
      encrypt aes nonce variant (pos * UInt64.ofNat padding_size + UInt64.ofNat i)
    else variant

/-- The response holds the entries of a pack, one behind the other; `alpha` is not zero. -/
def extractCiphertext (response : ℕ → UInt8) (alpha aggregated_entrySize pos : UInt64) :
    List Char :=
  let data_hash_bytes := data_hash_size / 8
  (List.range padding_size).flatMap fun i =>
    let start := (aggregated_entrySize * (pos % alpha)).toNat + data_hash_bytes * i
    let ciphertext := (List.range data_hash_bytes).map fun byte => response (start + byte)
    let plaintext :=
      decrypt aes nonce ciphertext (pos * UInt64.ofNat padding_size + UInt64.ofNat i)
    ucharToBinary plaintext (data_hash_bytes * 8)

variable {bytes : ℕ}

def zeroString (bytes : ℕ) : BitString bytes where
  chars := List.replicate (8 * bytes) '0'
  length_eq := List.length_replicate
  binary _ c_mem := Or.inl (List.eq_of_mem_replicate c_mem)

/-- An entry of the catalog: the hashes that were appended to it. -/
def entryText (hashes : List (BitString bytes)) : List Char := hashes.flatMap BitString.chars

/-- What the slots of an entry hold. -/
def slots (hashes : List (BitString bytes)) : List (BitString bytes) :=
  List.replicate (padding_size - hashes.length) (zeroString bytes) ++ hashes

variable {aes nonce encrypted padding_size data_hash_size}

theorem sendEntry_eq (entry : List UInt8) (sending : Sending) :
    sendEntry aes nonce true padding_size data_hash_size entry sending =
      (sending.1 + UInt64.ofNat padding_size,
        sending.2 ++ (List.range padding_size).map fun j =>
          encrypt aes nonce (slotAt (data_hash_size / 8) entry j)
            (sending.1 + UInt64.ofNat j)) := by
  simp only [sendEntry, Bool.not_true, Bool.false_eq_true, if_false]
  generalize padding_size = count
  induction count with
  | zero => simp [forLoop_zero]
  | succ count ih =>
      rw [forLoop_succ, ih]
      simp [List.range_succ, UInt64.add_assoc]

/-- The number of a slot in the file is the one it is encrypted with. -/
theorem sendEntry_foldl (entryOf : List Char → List UInt8) (sizes : List (List UInt8))
    (catalog : List (List Char)) {sending : Sending}
    (sending_eq : catalog.foldl (fun sending text =>
      sendEntry aes nonce true padding_size data_hash_size (entryOf text) sending) (0, sizes) =
        sending) :
    sending.1 = UInt64.ofNat (catalog.length * padding_size) ∧
      sending.2.length = sizes.length + catalog.length * padding_size ∧
      ∀ p text, catalog[p]? = some text → ∀ j < padding_size,
        sending.2[sizes.length + (p * padding_size + j)]? =
          some (encrypt aes nonce (slotAt (data_hash_size / 8) (entryOf text) j)
            (UInt64.ofNat (p * padding_size + j))) := by
  induction catalog using List.reverseRecOn generalizing sending with
  | nil =>
      subst sending_eq
      simp
  | append_singleton catalog last ih =>
      rcases ih rfl with ⟨pos_eq, length_eq, earlier⟩
      rw [List.foldl_append, List.foldl_cons, List.foldl_nil, sendEntry_eq, pos_eq] at sending_eq
      subst sending_eq
      rw [List.length_append, List.length_singleton, Nat.succ_mul]
      refine ⟨by simp, by simp [length_eq, Nat.add_assoc], ?_⟩
      intro p text here j j_lt
      rcases Nat.lt_trichotomy p catalog.length with before | rfl | after
      · rw [List.getElem?_append_left before] at here
        have block_le : p * padding_size + padding_size ≤ catalog.length * padding_size := by
          rw [← Nat.succ_mul]
          exact Nat.mul_le_mul_right _ before
        rw [List.getElem?_append_left (by rw [length_eq]; omega)]
        exact earlier p text here j j_lt
      · rw [List.getElem?_concat_length, Option.some.injEq] at here
        subst here
        rw [List.getElem?_append_right (by rw [length_eq]; omega), length_eq,
          show sizes.length + (catalog.length * padding_size + j) -
            (sizes.length + catalog.length * padding_size) = j by omega,
          List.getElem?_map, List.getElem?_range j_lt, Option.map_some, UInt64.ofNat_add]
      · rw [List.getElem?_eq_none (by simp; omega)] at here
        exact absurd here (by simp)

theorem slotAt_flatMap {Element : Type} {f : Element → List UInt8} {width : ℕ}
    {elements : List Element} (length_eq : ∀ element ∈ elements, (f element).length = width) {j : ℕ}
    {element : Element} (here : elements[j]? = some element) :
    slotAt width (elements.flatMap f) j = f element := by
  induction elements generalizing j with
  | nil => exact absurd here (by simp)
  | cons first elements ih =>
      have first_length := length_eq first List.mem_cons_self
      rw [List.flatMap_cons]
      cases j with
      | zero =>
          rw [List.getElem?_cons_zero, Option.some.injEq] at here
          rw [slotAt, Nat.mul_zero, List.drop_zero, ← first_length, List.take_left, here]
      | succ j =>
          have later := ih (fun element element_mem =>
            length_eq element (List.mem_cons_of_mem first element_mem)) here
          rw [slotAt, Nat.mul_succ, Nat.add_comm, ← List.drop_drop, ← first_length,
            List.drop_left, first_length]
          exact later

theorem binaryToUchar_flatMap (strings : List (BitString bytes)) :
    binaryToUchar (strings.flatMap BitString.chars) =
      strings.flatMap fun string => binaryToUchar string.chars := by
  induction strings with
  | nil => simp [binaryToUchar]
  | cons string strings ih =>
      rw [List.flatMap_cons, List.flatMap_cons,
        binaryToUchar_append ⟨bytes, string.length_eq⟩, ih]

theorem length_entryText (hashes : List (BitString bytes)) :
    (entryText hashes).length = hashes.length * (8 * bytes) := by
  induction hashes with
  | nil => simp [entryText]
  | cons hash hashes ih =>
      rw [entryText] at ih
      rw [entryText, List.flatMap_cons, List.length_append, hash.length_eq, List.length_cons, ih,
        Nat.add_mul, Nat.one_mul, Nat.add_comm]

theorem zeroStrings (count : ℕ) :
    (List.replicate count (zeroString bytes)).flatMap BitString.chars =
      List.replicate (count * (8 * bytes)) '0' := by
  induction count with
  | zero => simp
  | succ count ih =>
      rw [List.replicate_succ, List.flatMap_cons, ih, Nat.add_mul, Nat.one_mul, Nat.add_comm,
        ← List.replicate_append_replicate]
      rfl

/-- The zeros in front of an entry fill whole slots. -/
theorem padData_entryText {hashes : List (BitString bytes)} :
    padData (entryText hashes) (padding_size * (8 * bytes)) =
      (slots padding_size hashes).flatMap BitString.chars := by
  rw [padData, slots, List.flatMap_append, zeroStrings, length_entryText, Nat.sub_mul, entryText]

theorem length_slots {hashes : List (BitString bytes)} (fit : hashes.length ≤ padding_size) :
    (slots padding_size hashes).length = padding_size := by
  rw [slots, List.length_append, List.length_replicate]
  omega

theorem slotAt_uchar {strings : List (BitString bytes)} {j : ℕ} {string : BitString bytes}
    (here : strings[j]? = some string) :
    slotAt bytes (binaryToUchar (strings.flatMap BitString.chars)) j =
      binaryToUchar string.chars := by
  rw [binaryToUchar_flatMap]
  exact slotAt_flatMap (fun element _ => element.length_uchar) here

variable {catalog : List (List (BitString bytes))} {p j : ℕ} {hashes : List (BitString bytes)}
variable {slot : BitString bytes}

/-- What is sent for a slot. -/
theorem sendData_getElem? (entry_eq : catalog[p]? = some hashes) (j_lt : j < padding_size)
    (slot_eq : (slots padding_size hashes)[j]? = some slot) :
    (sendData aes nonce true padding_size (8 * bytes)
      (catalog.map entryText))[2 + (p * padding_size + j)]? =
        some (encrypt aes nonce (binaryToUchar slot.chars)
          (UInt64.ofNat (p * padding_size + j))) := by
  have bits_eq : padding_size * (8 * bytes) / 8 * 8 = padding_size * (8 * bytes) := by
    rw [Nat.mul_left_comm, Nat.mul_div_cancel_left _ (by decide), Nat.mul_comm]
  have text_eq : (catalog.map entryText)[p]? = some (entryText hashes) := by
    rw [List.getElem?_map, entry_eq, Option.map_some]
  rw [sendData]
  refine ((sendEntry_foldl _ _ _ rfl).2.2 p _ text_eq j j_lt).trans ?_
  rw [bits_eq, padData_entryText, Nat.mul_div_cancel_left _ (by decide), slotAt_uchar slot_eq]

theorem slotAt_generateRequest (j_lt : j < padding_size) (hash : BitString bytes) :
    slotAt bytes (generateRequest aes nonce true padding_size (UInt64.ofNat p) hash.chars bytes) j =
      encrypt aes nonce (binaryToUchar hash.chars) (UInt64.ofNat (p * padding_size + j)) := by
  have whole : (binaryToUchar hash.chars).take bytes = binaryToUchar hash.chars :=
    List.take_of_length_le hash.length_uchar.le
  rw [generateRequest]
  simp only [whole, if_true, UInt64.ofNat_add, UInt64.ofNat_mul]
  apply slotAt_flatMap
  · intro i _
    rw [length_encrypt, hash.length_uchar]
  · exact List.getElem?_range j_lt

theorem exists_slot (fit : hashes.length ≤ padding_size) (j_lt : j < padding_size) :
    ∃ slot, (slots padding_size hashes)[j]? = some slot :=
  ⟨_, List.getElem?_eq_getElem (by rw [length_slots fit]; exact j_lt)⟩

theorem slotAt_range (memory : ℕ → UInt8) (j_lt : j < padding_size) :
    slotAt bytes ((List.range (padding_size * bytes)).map memory) j =
      (List.range bytes).map fun byte => memory (bytes * j + byte) := by
  have slot_le : bytes * j + bytes ≤ padding_size * bytes := by
    rw [← Nat.mul_succ, Nat.mul_comm]
    exact Nat.mul_le_mul_right bytes j_lt
  apply List.ext_getElem
  · simp only [slotAt, List.length_take, List.length_drop, List.length_map, List.length_range]
    omega
  · intro i _ _
    simp [slotAt]

/-- The messages that are sent for an entry, one behind the other. -/
def sentEntry (sent : List (List UInt8)) (padding_size p : ℕ) : List UInt8 :=
  ((sent.drop (2 + p * padding_size)).take padding_size).flatten

theorem slotAt_sentEntry (fit : hashes.length ≤ padding_size)
    (entry_eq : catalog[p]? = some hashes) (j_lt : j < padding_size)
    (slot_eq : (slots padding_size hashes)[j]? = some slot) :
    slotAt bytes (sentEntry (sendData aes nonce true padding_size (8 * bytes)
      (catalog.map entryText)) padding_size p) j =
        encrypt aes nonce (binaryToUchar slot.chars) (UInt64.ofNat (p * padding_size + j)) := by
  have message_eq : ∀ {i string}, i < padding_size →
      (slots padding_size hashes)[i]? = some string →
        (((sendData aes nonce true padding_size (8 * bytes) (catalog.map entryText)).drop
          (2 + p * padding_size)).take padding_size)[i]? =
            some (encrypt aes nonce (binaryToUchar string.chars)
              (UInt64.ofNat (p * padding_size + i))) := by
    intro i string i_lt string_eq
    rw [List.getElem?_take_of_lt i_lt, List.getElem?_drop, Nat.add_assoc]
    exact sendData_getElem? entry_eq i_lt string_eq
  rw [sentEntry, ← List.flatMap_id]
  apply slotAt_flatMap (f := id)
  · intro message message_mem
    rcases List.getElem?_of_mem message_mem with ⟨i, here⟩
    have i_lt : i < padding_size := by
      have bound := (List.getElem?_eq_some_iff.mp here).1
      rw [List.length_take] at bound
      omega
    rcases exists_slot fit i_lt with ⟨string, string_eq⟩
    rw [message_eq i_lt string_eq, Option.some.injEq] at here
    rw [← here, id, length_encrypt, string.length_uchar]
  · exact message_eq j_lt slot_eq

theorem extractCiphertext_eq (fit : hashes.length ≤ padding_size)
    (entry_eq : catalog[p]? = some hashes) {response : ℕ → UInt8}
    {alpha aggregated_entrySize : UInt64}
    (held : (List.range (padding_size * bytes)).map (fun byte =>
        response ((aggregated_entrySize * (UInt64.ofNat p % alpha)).toNat + byte)) =
      sentEntry (sendData aes nonce true padding_size (8 * bytes) (catalog.map entryText))
        padding_size p) :
    extractCiphertext aes nonce padding_size (8 * bytes) response alpha aggregated_entrySize
      (UInt64.ofNat p) = (slots padding_size hashes).flatMap BitString.chars := by
  have slots_eq : slots padding_size hashes =
      (List.range padding_size).map fun i =>
        (slots padding_size hashes).getD i (zeroString bytes) := by
    apply List.ext_getElem
    · rw [length_slots fit, List.length_map, List.length_range]
    · intro i i_lt _
      rw [List.getElem_map, List.getElem_range, List.getD_eq_getElem _ _ i_lt]
  rw [slots_eq, List.flatMap_map, extractCiphertext, List.flatMap_def, List.flatMap_def]
  apply congrArg List.flatten
  apply List.map_congr_left
  intro i i_mem
  have i_lt := List.mem_range.mp i_mem
  rcases exists_slot fit i_lt with ⟨slot, slot_eq⟩
  have received := @slotAt_sentEntry aes nonce _ _ _ _ _ _ _ fit entry_eq i_lt slot_eq
  rw [← held, slotAt_range _ i_lt] at received
  simp only [Nat.mul_div_cancel_left bytes (by decide : 0 < 8), Nat.add_assoc, received,
    ← UInt64.ofNat_mul, ← UInt64.ofNat_add, decrypt_encrypt]
  rw [Nat.mul_comm, slot.ucharToBinary_uchar, List.getD_eq_getElem?_getD, slot_eq,
    Option.getD_some]

/--
A slot is sent with its number, a query that puts a hash into the slot meets the same
bytes exactly if the slot holds this hash, and the slots of an entry are recovered from
a response that holds what was sent for it. No two slots of a file share a block of
the keystream.
-/
theorem slotCode_agrees (aes : Block → Block) (nonce : Vector UInt8 8) (short : bytes ≤ 16)
    (fit : ∀ hashes ∈ catalog, hashes.length ≤ padding_size)
    (counted : catalog.length * padding_size ≤ 2 ^ 64) :
    let sent := sendData aes nonce true padding_size (8 * bytes) (catalog.map entryText)
    (∀ p hashes, catalog[p]? = some hashes →
      (∀ j < padding_size, ∃ slot message,
        (slots padding_size hashes)[j]? = some slot ∧
        sent[2 + (p * padding_size + j)]? = some message ∧
        message = List.zipWith (· ^^^ ·) (binaryToUchar slot.chars)
          (aes (ivAt nonce (UInt64.ofNat (p * padding_size + j)))).toList ∧
        ∀ hash : BitString bytes,
          slotAt bytes (generateRequest aes nonce true padding_size (UInt64.ofNat p) hash.chars
            bytes) j = message ↔ slot = hash) ∧
      ∀ (response : ℕ → UInt8) (alpha aggregated_entrySize : UInt64), alpha ≠ 0 →
        (List.range (padding_size * bytes)).map (fun byte =>
            response ((aggregated_entrySize * (UInt64.ofNat p % alpha)).toNat + byte)) =
          sentEntry sent padding_size p →
        extractCiphertext aes nonce padding_size (8 * bytes) response alpha aggregated_entrySize
          (UInt64.ofNat p) = (slots padding_size hashes).flatMap BitString.chars) ∧
    ∀ left < catalog.length * padding_size, ∀ right < catalog.length * padding_size,
      left ≠ right → (counterBlocks nonce (UInt64.ofNat left) bytes).Disjoint
        (counterBlocks nonce (UInt64.ofNat right) bytes) := by
  intro sent
  constructor
  · intro p hashes entry_eq
    have hashes_fit := fit hashes (List.mem_of_getElem? entry_eq)
    constructor
    · intro j j_lt
      rcases exists_slot hashes_fit j_lt with ⟨slot, slot_eq⟩
      refine ⟨slot, _, slot_eq, sendData_getElem? entry_eq j_lt slot_eq,
        encrypt_eq (by rw [slot.length_uchar]; exact short) _, ?_⟩
      intro hash
      rw [slotAt_generateRequest j_lt, encrypt_inj, eq_comm]
      exact ⟨BitString.uchar_injective, fun same => by rw [same]⟩
    · intro response alpha aggregated_entrySize _ held
      exact extractCiphertext_eq hashes_fit entry_eq held
  · intro left left_lt right right_lt apart
    apply disjoint_counterBlocks _ short
    intro same
    have values := congrArg UInt64.toNat same
    rw [UInt64.toNat_ofNat_of_lt' (left_lt.trans_le counted),
      UInt64.toNat_ofNat_of_lt' (right_lt.trans_le counted)] at values
    exact apart values

/-- A hash in the second of two slots, which is queried for. -/
theorem slotCode_agrees_single :
    let nonce : Vector UInt8 8 := Vector.replicate 8 7
    let hash : BitString 1 := ⟨['1', '0', '0', '0', '0', '0', '1', '1'], rfl, by simp⟩
    ∃ message, (sendData id nonce true 2 8 [entryText [hash]])[3]? = some message ∧
      slotAt 1 (generateRequest id nonce true 2 0 hash.chars 1) 1 = message := by
  intro nonce hash
  have agrees := (slotCode_agrees id nonce (by decide : 1 ≤ 16)
    (by simp : ∀ hashes ∈ [[hash]], hashes.length ≤ 2) (by decide)).1 0 [hash] rfl
  rcases agrees.1 1 (by decide) with ⟨slot, message, slot_eq, sent, _, request⟩
  exact ⟨message, sent, (request hash).mpr (Option.some.inj slot_eq).symm⟩

end Transmission

end Xpir.PIRClient
