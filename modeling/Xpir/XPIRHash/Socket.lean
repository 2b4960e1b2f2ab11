import Xpir.Foundations.ByteStream

/-!
# Integers on the connection

Integers are sent in network byte order. A 64-bit integer is cut to 32 bits by the
conversion, and the converted number is written as the machine holds it.
-/

namespace Xpir.Socket

def sendInt (integer : UInt32) : List UInt8 := (encodeBytes 4 integer.toNat).reverse

def readInt (input : List UInt8) : Option (UInt32 × List UInt8) :=
  (readBytes 4 input).map fun read => (UInt32.ofNat (decodeBytes read.1.reverse), read.2)

/-- `htonl` takes the low half; the other half of the converted number is zero. -/
def senduInt64 (integer : UInt64) : List UInt8 := sendInt integer.toUInt32 ++ [0, 0, 0, 0]

def readuInt64 (input : List UInt8) : Option (UInt64 × List UInt8) :=
  (readBytes 8 input).map fun read =>
    ((UInt32.ofNat (decodeBytes (read.1.take 4).reverse)).toUInt64, read.2)

@[simp]
theorem length_sendInt (integer : UInt32) : (sendInt integer).length = 4 := by
  rw [sendInt, List.length_reverse, length_encodeBytes]

theorem decode_sendInt (integer : UInt32) :
    UInt32.ofNat (decodeBytes (sendInt integer).reverse) = integer := by
  have integer_lt : integer.toNat < 256 ^ 4 := integer.toNat_lt
  rw [sendInt, List.reverse_reverse, decodeBytes_encodeBytes, Nat.mod_eq_of_lt integer_lt,
    UInt32.ofNat_toNat]

@[simp]
theorem readInt_sendInt (integer : UInt32) (rest : List UInt8) :
    readInt (sendInt integer ++ rest) = some (integer, rest) := by
  rw [readInt, readBytes_append (length_sendInt integer), Option.map_some, decode_sendInt]

@[simp]
theorem readuInt64_senduInt64 (integer : UInt64) (rest : List UInt8) :
    readuInt64 (senduInt64 integer ++ rest) = some (integer.toUInt32.toUInt64, rest) := by
  have length_eq : (senduInt64 integer).length = 8 := by
    rw [senduInt64, List.length_append, length_sendInt]
    rfl
  rw [readuInt64, readBytes_append length_eq, Option.map_some, senduInt64,
    List.take_left' (length_sendInt _), decode_sendInt]

end Xpir.Socket
