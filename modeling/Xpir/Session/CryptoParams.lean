import Mathlib.Data.List.TakeWhile
import Xpir.NFLlib.NFLParams
import Xpir.Paillier.PaillierKeys
import Xpir.Session.PirParams

/-!
# Cryptosystems described by a text

A session exchanges the parameters of a cryptosystem as a text of fields that colons
separate, and for Paillier also the public key. Each end builds its own object from the
text, and takes from it the sizes of the key and of the query elements.

The text that an object gives of its parameters does not always describe the same object.
The object of FV leaves out the size of the plaintexts, which it expects when it reads a
text. The object of LWE writes a question mark for an absorption that has not been set,
and reads a question mark as zero. `getSerializedParams_getCryptoMethod_iff` says which
objects are described by their text.
-/

namespace Xpir

open NFLlib

section Numbers

/-- `std::to_string` of an unsigned number. -/
def toText (value : ℕ) : List Char := Nat.toDigits 10 value

/-- `std::to_string` of an `int`. -/
def toTextInt (value : Int32) : List Char :=
  if value.toInt < 0 then '-' :: toText value.toInt.natAbs else toText value.toInt.natAbs

theorem isDigit_of_mem_toText {value : ℕ} {c : Char} (mem : c ∈ toText value) : c.isDigit :=
  Nat.isDigit_of_mem_toDigits (by norm_num) (by norm_num) mem

theorem isSpace_eq_false {c : Char} (digit : c.isDigit) : isSpace c = false := by
  simp only [Char.isDigit, ge_iff_le, Bool.and_eq_true, decide_eq_true_eq] at digit
  have lower : 48 ≤ c.toNat := digit.1
  have not_blank : c ≠ ' ' := by
    rintro rfl
    exact absurd lower (by decide)
  simp only [isSpace, not_blank, decide_false, Bool.false_or, Bool.and_eq_false_imp,
    decide_eq_true_eq, decide_eq_false_iff_not, not_le]
  omega

@[simp]
theorem digitsValue_toText (value : ℕ) : digitsValue (toText value) = value := by
  have digits : (toText value).takeWhile Char.isDigit = toText value :=
    List.takeWhile_eq_self_iff.mpr fun _ => isDigit_of_mem_toText
  rw [digitsValue, digits, ← Nat.ofDigitChars_eq_foldl]
  exact Nat.ofDigitChars_ten_toDigits

theorem strtol_toText (value : ℕ) : strtol (toText value) = min (value : ℤ) (2 ^ 63 - 1) := by
  have digit := fun c (mem : c ∈ toText value) => isDigit_of_mem_toText mem
  have value_eq := digitsValue_toText value
  rw [strtol]
  cases text : toText value with
  | nil => exact absurd text Nat.toDigits_ne_nil
  | cons c rest =>
      rw [text] at digit value_eq
      have first := digit c List.mem_cons_self
      rw [List.dropWhile_cons_of_neg (by simp [isSpace_eq_false first])]
      split
      next heading =>
        rw [(List.cons.inj heading).1] at first
        exact absurd first (by decide)
      next heading =>
        rw [(List.cons.inj heading).1] at first
        exact absurd first (by decide)
      next => rw [value_eq]

theorem atoi_toText {value : ℕ} (lt : value < 2 ^ 63) :
    atoi (toText value) = UInt32.ofNat value := by
  rw [atoi, strtol_toText, min_eq_left (by omega), UInt32.ofInt, ← UInt32.toNat_inj,
    UInt32.toNat_ofNat', UInt32.toNat_ofNat']
  omega

@[simp]
theorem atoi_toText_toNat (value : UInt32) : atoi (toText value.toNat) = value := by
  have value_lt := value.toNat_lt
  rw [atoi_toText (by omega), UInt32.ofNat_toNat]

theorem toInt32_ofInt (value : ℤ) : (UInt32.ofInt value).toInt32 = Int32.ofInt value := by
  rw [UInt32.ofInt, UInt32.toInt32_ofNat', ← Int32.toInt_inj, Int32.toInt_ofNat',
    Int32.toInt_ofInt, Int.toNat_of_nonneg (Int.emod_nonneg _ (by norm_num))]
  exact Int.emod_bmod value Int32.size

/-- An `int` is read as it has been written. -/
@[simp]
theorem atoi_toTextInt (value : Int32) : (atoi (toTextInt value)).toInt32 = value := by
  have le := value.le_toInt
  have lt := value.toInt_lt
  have value_eq : strtol (toTextInt value) = value.toInt := by
    rw [toTextInt]
    split
    · have reads : strtol ('-' :: toText value.toInt.natAbs) =
          max (-(digitsValue (toText value.toInt.natAbs) : ℤ)) (-2 ^ 63) := rfl
      rw [reads, digitsValue_toText]
      omega
    · rw [strtol_toText]
      omega
  rw [atoi, value_eq, toInt32_ofInt, Int32.ofInt_toInt]

end Numbers

/-! ## The objects -/

/-- What a session depends on of an `NFLLWE` object whose parameters have been set. -/
structure LWEParameters where
  /-- The `int` that the security level has been set from. -/
  securityBits : Int32
  polyDegree : UInt32
  nbModuli : ℕ
  absPerCoordinateBitsize : Int32
  polyDegree_pos : 0 < polyDegree.toNat
  polyDegree_le : polyDegree.toNat ≤ 2 ^ 31
  nbModuli_pos : 0 < nbModuli
  nbModuli_le : nbModuli ≤ kMaxNbModuli

/-- The three parameter sets that FV has been generated for. -/
inductive FVobject
  | FV2048_124
  | FV1024_62
  | FV2048_62
  deriving DecidableEq

namespace FVobject

def polyDegree : FVobject → UInt32
  | FV2048_124 => 2048
  | FV1024_62 => 1024
  | FV2048_62 => 2048

def aggregatedModulusBitsize : FVobject → UInt32
  | FV2048_124 => 124
  | FV1024_62 => 62
  | FV2048_62 => 62

def plainbits : FVobject → UInt32
  | FV2048_124 => 30
  | FV1024_62 => 14
  | FV2048_62 => 14

def nbModuli (fvobject : FVobject) : ℕ := fvobject.aggregatedModulusBitsize.toNat / 62

/-- A negative security level is a large number, as the comparison is unsigned. -/
def Secure (fvobject : FVobject) (securityBits : Int32) : Prop :=
  0 ≤ securityBits.toInt ∧
    match fvobject with
    | FV2048_124 => securityBits.toInt < 90
    | FV1024_62 => securityBits.toInt < 90
    | FV2048_62 => securityBits.toInt < 172

instance (fvobject : FVobject) (securityBits : Int32) :
    Decidable (fvobject.Secure securityBits) := by
  cases fvobject <;> exact inferInstanceAs (Decidable (_ ∧ _))

end FVobject

structure FVParameters where
  securityBits : Int32
  fvobject : FVobject
  absPerCoordinateBitsize : Int32
  secure : fvobject.Secure securityBits

/-- The modulus and the exponent that a session transports, beside the parameters. -/
structure PaillierParameters where
  securityBits : UInt32
  bitKeySize : UInt32
  n : ℕ
  initS : Int32

inductive CryptoMethod
  | LWE (params : LWEParameters)
  | FV (params : FVParameters)
  | Paillier (params : PaillierParameters)

/-- Where a party takes its Paillier keys from; a search for primes that exist ends. -/
structure Keygen where
  draw : (modulusbits : ℕ) → Option (KeyPrimes modulusbits)
  draw_isSome : ∀ modulusbits, Nonempty (KeyPrimes modulusbits) → (draw modulusbits).isSome

/-! ## From a text -/

/-- The absorption is optional. -/
def absorptionOf : List (List Char) → Int32
  | [] => -1
  | absorption :: _ => (atoi absorption).toInt32

/--
The library exits if the size is not a multiple of that of a modulus, has tables for a
limited number of moduli, and loops for ever on some degrees.
-/
def LWEParameters.setNewParameters : List (List Char) → Option LWEParameters
  | _ :: security :: degree :: modulus :: rest =>
      let aggregatedModulusBitsize := (atoi modulus).toNat
      let nbModuli := aggregatedModulusBitsize / kModulusBitsize % 2 ^ 16
      if aggregatedModulusBitsize % kModulusBitsize ≠ 0 then none
      else if inRange : 0 < nbModuli ∧ nbModuli ≤ kMaxNbModuli ∧
          0 < (atoi degree).toNat ∧ (atoi degree).toNat ≤ 2 ^ 31 then
        some {
          securityBits := (atoi security).toInt32
          polyDegree := atoi degree
          nbModuli
          absPerCoordinateBitsize := absorptionOf rest
          polyDegree_pos := inRange.2.2.1
          polyDegree_le := inRange.2.2.2
          nbModuli_pos := inRange.1
          nbModuli_le := inRange.2.1 }
      else none
  | _ => none

/-- Without one of the three objects, a null pointer is dereferenced. -/
def FVParameters.setNewParameters : List (List Char) → Option FVParameters
  | _ :: security :: degree :: modulus :: plainbits :: rest =>
      let securityBits := (atoi security).toInt32
      let describes (fvobject : FVobject) : Prop :=
        atoi degree = fvobject.polyDegree ∧
          atoi modulus = fvobject.aggregatedModulusBitsize ∧ atoi plainbits = fvobject.plainbits
      if chosen : describes .FV2048_124 ∧ FVobject.FV2048_124.Secure securityBits then
        some ⟨securityBits, .FV2048_124, absorptionOf rest, chosen.2⟩
      else if chosen : describes .FV1024_62 ∧ FVobject.FV1024_62.Secure securityBits then
        some ⟨securityBits, .FV1024_62, absorptionOf rest, chosen.2⟩
      else if chosen : describes .FV2048_62 ∧ FVobject.FV2048_62.Secure securityBits then
        some ⟨securityBits, .FV2048_62, absorptionOf rest, chosen.2⟩
      else none
  | _ => none

def PaillierParameters.setNewParameters (keygen : Keygen) :
    List (List Char) → Option PaillierParameters
  | _ :: security :: keySize :: _ =>
      (keygen.draw (atoi keySize).toNat).map fun primes =>
        { securityBits := atoi security
          bitKeySize := atoi keySize
          n := primes.modulus
          initS := 1 }
  | _ => none

namespace CryptoMethod

/-- The cryptosystem that a text names, with the parameters it describes. -/
def getCryptoMethod (keygen : Keygen) (text : List Char) : Option CryptoMethod :=
  let fields := text.splitOn ':'
  if fields.head? = some ['P', 'a', 'i', 'l', 'l', 'i', 'e', 'r'] then
    (PaillierParameters.setNewParameters keygen fields).map Paillier
  else if fields.head? = some ['L', 'W', 'E'] then
    (LWEParameters.setNewParameters fields).map LWE
  else if fields.head? = some ['F', 'V'] then
    (FVParameters.setNewParameters fields).map FV
  else none

/-! ## To a text -/

/-- The security level, as an unsigned number of 64 bits. -/
def getsecurityBits (securityBits : Int32) : ℕ := (UInt64.ofInt securityBits.toInt).toNat

def absorptionText (absPerCoordinateBitsize : Int32) : List Char :=
  if absPerCoordinateBitsize = -1 then ['?'] else toTextInt absPerCoordinateBitsize

/-- The text of the lattice based cryptosystems. -/
def latticeFields (name : List Char) (securityBits : Int32) (polyDegree : UInt32)
    (modulusBitsize : ℕ) (absPerCoordinateBitsize : Int32) : List (List Char) :=
  [name, toText (getsecurityBits securityBits), toText polyDegree.toNat, toText modulusBitsize,
    absorptionText absPerCoordinateBitsize]

def getmodulusBitsizeLWE (params : LWEParameters) : ℕ := params.nbModuli * kModulusBitsize

def getmodulusBitsizeFV (params : FVParameters) : ℕ :=
  params.fvobject.aggregatedModulusBitsize.toNat / 62 * 62

/-- The fields of the long version of the text. -/
def serializedFields : CryptoMethod → List (List Char)
  | LWE params =>
      latticeFields ['L', 'W', 'E'] params.securityBits params.polyDegree
        (getmodulusBitsizeLWE params) params.absPerCoordinateBitsize
  | FV params =>
      latticeFields ['F', 'V'] params.securityBits params.fvobject.polyDegree
        (getmodulusBitsizeFV params) params.absPerCoordinateBitsize
  | Paillier params =>
      [['P', 'a', 'i', 'l', 'l', 'i', 'e', 'r'], toText params.securityBits.toNat,
        toText params.bitKeySize.toNat, toText (params.bitKeySize * 2).toNat,
        toText (params.bitKeySize - 8).toNat]

/-- `getSerializedParams(false)`. -/
def getSerializedParams (crypto : CryptoMethod) : List Char :=
  [':'].intercalate crypto.serializedFields

/-! ## The sizes and the key -/

/-- Each modulus is represented by a number of 64 bits. -/
def getModulusRepresentationBitsize (modulusBitsize : ℕ) : ℕ := (modulusBitsize + 63) / 64 * 64

def getSerializedModulusBitsize : CryptoMethod → ℕ
  | LWE params => getModulusRepresentationBitsize (getmodulusBitsizeLWE params)
  | FV params => getModulusRepresentationBitsize (getmodulusBitsizeFV params)
  | Paillier params => (params.bitKeySize + 32).toNat

/-- The bytes of a number, the most significant first. -/
def mpzExport (value : ℕ) : List UInt8 := (encodeBytes ((value.size + 7) / 8) value).reverse

def mpzImport (bytes : List UInt8) : ℕ := decodeBytes bytes.reverse

/--
The memory of the key. For the lattice based cryptosystems it is copied from the table of
the moduli, also what follows the table, of which no byte is sent.
-/
def getByteModulus : CryptoMethod → List UInt8
  | LWE _ => (List.ofFn P64).flatMap (encodeBytes 8)
  | FV _ => (List.ofFn P64).flatMap (encodeBytes 8)
  | Paillier params =>
      let keyBytes := params.bitKeySize.toNat / 8
      (mpzExport params.n ++ List.replicate keyBytes 0).take keyBytes ++
        writeInt params.initS.toUInt32

/-- The number of bytes of the key that are sent. -/
def keySize (crypto : CryptoMethod) : ℕ := (crypto.getSerializedModulusBitsize + 7) / 8

/-- The bytes that are sent, with those that lie beyond the memory of the key. -/
def sentKey (crypto : CryptoMethod) (beyond : ℕ → UInt8) : List UInt8 :=
  (List.range crypto.keySize).map fun i => crypto.getByteModulus.getD i (beyond i)

/--
The exponent lies behind the modulus; a key that ends before it would be read beyond its
end. The lattice based cryptosystems have no use for the key.
-/
def setModulus : CryptoMethod → List UInt8 → Option CryptoMethod
  | LWE params, _ => some (LWE params)
  | FV params, _ => some (FV params)
  | Paillier params, rawPubKey =>
      let keyBytes := params.bitKeySize.toNat / 8
      (readInt (rawPubKey.drop keyBytes)).map fun (initS, _) =>
        Paillier { params with
          n := mpzImport (rawPubKey.take keyBytes)
          initS := if (maxS : ℤ) ≤ initS.toInt32.toInt then Int32.ofNat (maxS - 1)
            else initS.toInt32 }

/-- The size of a query element in bits; the levels start at one. -/
def getQuerySizeFromRecLvl : CryptoMethod → UInt32 → UInt32
  | LWE params, _ =>
      UInt32.ofNat (getModulusRepresentationBitsize (getmodulusBitsizeLWE params)) *
        params.polyDegree * 2
  | FV params, _ =>
      UInt32.ofNat (getModulusRepresentationBitsize (getmodulusBitsizeFV params)) *
        params.fvobject.polyDegree * 2
  | Paillier params, lvl => (lvl + params.initS.toUInt32) * params.bitKeySize

/-- The bytes of the two polynomials of a ciphertext. -/
def ciphertextBytes (polyDegree : UInt32) (nbModuli : ℕ) : ℕ :=
  2 * (nbModuli * polyDegree.toNat) * 8

/-- The bytes of a query element that `encrypt` has made; the levels start at one. -/
def elementSize : CryptoMethod → UInt32 → ℕ
  | LWE params, _ => ciphertextBytes params.polyDegree params.nbModuli
  | FV params, _ => ciphertextBytes params.fvobject.polyDegree params.fvobject.nbModuli
  | Paillier params, lvl => (params.bitKeySize * (lvl + 1)).toNat / 8

/-- A query element as a reply generator holds it: its words, or a number. -/
inductive QueryCell
  | words (rawQuery : List UInt8)
  | number (value : ℕ)

/-- What the generator of a cryptosystem stores. -/
def queryCell : CryptoMethod → List UInt8 → QueryCell
  | Paillier _, rawQuery => .number (mpzImport rawQuery)
  | _, rawQuery => .words rawQuery

/--
The bytes that `pushQuery` reads of an element, whatever its size is. The generator of the
lattice based cryptosystems also writes as many, for the quotients, to a buffer of that size.
-/
def readBytes : CryptoMethod → ℕ
  | LWE params => ciphertextBytes params.polyDegree params.nbModuli
  | FV params => ciphertextBytes params.fvobject.polyDegree params.fvobject.nbModuli
  | Paillier _ => 0

/-! ## What a text says -/

/-- The characters of a text are bytes, and none ends it early. -/
def IsText (text : List Char) : Prop := ∀ c ∈ text, 0 < c.toNat ∧ c.toNat < 256

instance (text : List Char) : Decidable (IsText text) :=
  inferInstanceAs (Decidable (∀ c ∈ text, _))

/-- What stands between two colons. -/
structure IsField (field : List Char) : Prop where
  colon_notMem : ':' ∉ field
  isText : IsText field
  length_le : field.length ≤ 20

theorem isField_toText {value : ℕ} (lt : value < 10 ^ 20) : IsField (toText value) where
  colon_notMem := fun mem => absurd (isDigit_of_mem_toText mem) (by decide)
  isText := by
    intro c mem
    have digit := isDigit_of_mem_toText mem
    simp only [Char.isDigit, ge_iff_le, Bool.and_eq_true, decide_eq_true_eq] at digit
    have lower : 48 ≤ c.toNat := digit.1
    have upper : c.toNat ≤ 57 := digit.2
    omega
  length_le := (Nat.length_toDigits_le_iff (by norm_num) (by norm_num)).mpr lt

theorem isField_toText_toNat (value : UInt32) : IsField (toText value.toNat) := by
  have value_lt := value.toNat_lt
  exact isField_toText (by omega)

theorem isField_toTextInt (value : Int32) : IsField (toTextInt value) := by
  have le := value.le_toInt
  have lt := value.toInt_lt
  have digits : IsField (toText value.toInt.natAbs) := isField_toText (by omega)
  have short : (toText value.toInt.natAbs).length ≤ 19 :=
    (Nat.length_toDigits_le_iff (by norm_num) (by norm_num)).mpr (by omega)
  rw [toTextInt]
  split
  · refine ⟨?_, ?_, by simpa using Nat.succ_le_succ short⟩
    · simpa using digits.colon_notMem
    · intro c mem
      rcases List.mem_cons.mp mem with rfl | mem
      · decide
      · exact digits.isText c mem
  · exact digits

theorem isField_serializedFields (crypto : CryptoMethod) :
    ∀ field ∈ crypto.serializedFields, IsField field := by
  have literal : ∀ field : List Char, (':' ∉ field ∧ field.length ≤ 20 ∧
      ∀ c ∈ field, 0 < c.toNat ∧ c.toNat < 256) → IsField field :=
    fun _ holds => ⟨holds.1, holds.2.2, holds.2.1⟩
  have lattice : ∀ name securityBits polyDegree modulusBitsize absorption, IsField name →
      modulusBitsize < 10 ^ 20 → ∀ field ∈ latticeFields name securityBits polyDegree
        modulusBitsize absorption, IsField field := by
    intro name securityBits polyDegree modulusBitsize absorption name_isField bitsize_lt
    have security_lt := (UInt64.ofInt securityBits.toInt).toNat_lt
    simp only [latticeFields, List.forall_mem_cons, List.not_mem_nil, false_implies,
      implies_true, and_true]
    refine ⟨name_isField, isField_toText (by rw [getsecurityBits]; omega),
      isField_toText_toNat _, isField_toText bitsize_lt, ?_⟩
    rw [absorptionText]
    split
    · exact literal _ (by simp)
    · exact isField_toTextInt _
  cases crypto with
  | LWE params =>
      refine lattice _ _ _ _ _ (literal _ (by simp)) ?_
      have le : params.nbModuli ≤ 17 := params.nbModuli_le
      rw [getmodulusBitsizeLWE, kModulusBitsize]
      omega
  | FV params =>
      refine lattice _ _ _ _ _ (literal _ (by simp)) ?_
      have lt := params.fvobject.aggregatedModulusBitsize.toNat_lt
      rw [getmodulusBitsizeFV]
      omega
  | Paillier params =>
      simp only [serializedFields, List.forall_mem_cons, List.not_mem_nil, false_implies,
        implies_true, and_true]
      exact ⟨literal _ (by simp), isField_toText_toNat _, isField_toText_toNat _,
        isField_toText_toNat _, isField_toText_toNat _⟩

theorem serializedFields_ne_nil (crypto : CryptoMethod) : crypto.serializedFields ≠ [] := by
  cases crypto <;> exact List.cons_ne_nil _ _

theorem splitOn_getSerializedParams (crypto : CryptoMethod) :
    crypto.getSerializedParams.splitOn ':' = crypto.serializedFields :=
  List.splitOn_intercalate ':'
    (fun _ mem => (isField_serializedFields crypto _ mem).colon_notMem)
    crypto.serializedFields_ne_nil

theorem getSerializedParams_inj {crypto other : CryptoMethod} :
    crypto.getSerializedParams = other.getSerializedParams ↔
      crypto.serializedFields = other.serializedFields := by
  constructor
  · intro same
    rw [← splitOn_getSerializedParams, same, splitOn_getSerializedParams]
  · intro same
    rw [getSerializedParams, same, getSerializedParams]

/-- Fields that are joined give a text, which is not much longer than they are. -/
theorem intercalate_isText {fields : List (List Char)} (isField : ∀ field ∈ fields, IsField field) :
    IsText ([':'].intercalate fields) ∧
      ([':'].intercalate fields).length ≤ 21 * fields.length := by
  induction fields with
  | nil => exact ⟨fun c mem => absurd mem (by simp), by simp⟩
  | cons field fields ih =>
      have first := isField field List.mem_cons_self
      have rest := ih fun field mem => isField field (List.mem_cons_of_mem _ mem)
      have first_le := first.length_le
      cases fields with
      | nil =>
          rw [List.intercalate_singleton]
          exact ⟨first.isText, by simpa using first_le.trans (by omega)⟩
      | cons next fields =>
          rw [List.intercalate_cons_cons]
          constructor
          · intro c mem
            rcases List.mem_append.mp mem with before | after
            · rcases List.mem_append.mp before with mem | mem
              · exact first.isText c mem
              · rw [List.mem_singleton.mp mem]
                decide
            · exact rest.1 c after
          · have rest_le := rest.2
            simp only [List.length_append, List.length_cons, List.length_nil] at rest_le ⊢
            omega

theorem getSerializedParams_isText (crypto : CryptoMethod) : IsText crypto.getSerializedParams :=
  (intercalate_isText (isField_serializedFields crypto)).1

theorem length_getSerializedParams_le (crypto : CryptoMethod) :
    crypto.getSerializedParams.length ≤ 105 := by
  have fields : crypto.serializedFields.length = 5 := by cases crypto <;> rfl
  have length_le := (intercalate_isText (isField_serializedFields crypto)).2
  rw [fields] at length_le
  exact length_le

/-! ## An object and the one that its text describes -/

/-- The two objects give a key and the query elements the same sizes. -/
inductive SameShape : CryptoMethod → CryptoMethod → Prop
  | LWE {params other : LWEParameters} (polyDegree_eq : other.polyDegree = params.polyDegree)
      (nbModuli_eq : other.nbModuli = params.nbModuli) : SameShape (.LWE params) (.LWE other)
  | FV {params other : FVParameters} (fvobject_eq : other.fvobject = params.fvobject) :
      SameShape (.FV params) (.FV other)
  | Paillier {params other : PaillierParameters}
      (bitKeySize_eq : other.bitKeySize = params.bitKeySize)
      (initS_eq : params.initS = 1) (initS_eq' : other.initS = 1) :
      SameShape (.Paillier params) (.Paillier other)

/-- An object whose parameters have been set from a text. -/
def Configured : CryptoMethod → Prop
  | Paillier params => params.initS = 1 ∧ Nonempty (KeyPrimes params.bitKeySize.toNat)
  | _ => True

/-- The objects that are described by the text they give of themselves. -/
def Described : CryptoMethod → Prop
  | LWE params => -1 ≤ params.securityBits.toInt ∧ params.absPerCoordinateBitsize ≠ -1
  | FV _ => False
  | Paillier _ => True

theorem configured_of_getCryptoMethod {keygen : Keygen} {text : List Char} {crypto : CryptoMethod}
    (sets : getCryptoMethod keygen text = some crypto) : crypto.Configured := by
  simp only [getCryptoMethod] at sets
  split at sets
  · rcases Option.map_eq_some_iff.mp sets with ⟨params, params_eq, rfl⟩
    rw [PaillierParameters.setNewParameters.eq_def] at params_eq
    split at params_eq
    · rcases Option.map_eq_some_iff.mp params_eq with ⟨primes, _, rfl⟩
      exact ⟨rfl, ⟨primes⟩⟩
    · exact absurd params_eq (by simp)
  · split at sets
    · rcases Option.map_eq_some_iff.mp sets with ⟨params, _, rfl⟩
      trivial
    · split at sets
      · rcases Option.map_eq_some_iff.mp sets with ⟨params, _, rfl⟩
        trivial
      · exact absurd sets (by simp)

theorem getCryptoMethod_getSerializedParams (keygen : Keygen) (crypto : CryptoMethod) :
    getCryptoMethod keygen crypto.getSerializedParams =
      match crypto with
      | LWE params => (LWEParameters.setNewParameters (LWE params).serializedFields).map LWE
      | FV params => (FVParameters.setNewParameters (FV params).serializedFields).map FV
      | Paillier params =>
          (PaillierParameters.setNewParameters keygen (Paillier params).serializedFields).map
            Paillier := by
  rw [getCryptoMethod, splitOn_getSerializedParams]
  cases crypto <;> rfl

section Reading

/-- What a security level is read as. -/
def readSecurityBits (securityBits : Int32) : Int32 :=
  if 0 ≤ securityBits.toInt then securityBits else -1

theorem atoi_getsecurityBits (securityBits : Int32) :
    (atoi (toText (getsecurityBits securityBits))).toInt32 = readSecurityBits securityBits := by
  have le := securityBits.le_toInt
  have lt := securityBits.toInt_lt
  have security : getsecurityBits securityBits = (securityBits.toInt % 2 ^ 64).toNat := by
    rw [getsecurityBits, UInt64.ofInt, UInt64.toNat_ofNat']
    omega
  rw [atoi, strtol_toText, security, readSecurityBits, toInt32_ofInt]
  split
  next nonneg =>
    have read_eq : min ((securityBits.toInt % 2 ^ 64).toNat : ℤ) (2 ^ 63 - 1) =
        securityBits.toInt := by omega
    rw [read_eq, Int32.ofInt_toInt]
  next negative =>
    have read_eq : min ((securityBits.toInt % 2 ^ 64).toNat : ℤ) (2 ^ 63 - 1) = 2 ^ 63 - 1 := by
      omega
    rw [read_eq]
    rfl

theorem toText_inj {value other : ℕ} : toText value = toText other ↔ value = other := by
  constructor
  · intro same
    rw [← digitsValue_toText value, same, digitsValue_toText]
  · rintro rfl
    rfl

theorem getsecurityBits_readSecurityBits_iff (securityBits : Int32) :
    getsecurityBits (readSecurityBits securityBits) = getsecurityBits securityBits ↔
      -1 ≤ securityBits.toInt := by
  have le := securityBits.le_toInt
  have lt := securityBits.toInt_lt
  have security : ∀ value : Int32, getsecurityBits value = (value.toInt % 2 ^ 64).toNat := by
    intro value
    rw [getsecurityBits, UInt64.ofInt, UInt64.toNat_ofNat']
    omega
  rw [readSecurityBits, security, security]
  split
  next nonneg => simp only [true_iff]; omega
  next negative =>
    have minus_one : (-1 : Int32).toInt = -1 := rfl
    omega

/-- What an absorption is read as. -/
def readAbsorption (absPerCoordinateBitsize : Int32) : Int32 :=
  if absPerCoordinateBitsize = -1 then 0 else absPerCoordinateBitsize

theorem atoi_absorptionText (absPerCoordinateBitsize : Int32) :
    (atoi (absorptionText absPerCoordinateBitsize)).toInt32 =
      readAbsorption absPerCoordinateBitsize := by
  rw [absorptionText, readAbsorption]
  split
  · decide
  · exact atoi_toTextInt _

theorem absorptionText_readAbsorption_iff (absPerCoordinateBitsize : Int32) :
    absorptionText (readAbsorption absPerCoordinateBitsize) =
      absorptionText absPerCoordinateBitsize ↔ absPerCoordinateBitsize ≠ -1 := by
  rw [readAbsorption]
  split
  next unset =>
    subst unset
    exact iff_of_false (by decide) (by simp)
  next set => simp [set]

theorem setNewParameters_LWE (params : LWEParameters) :
    ∃ other, LWEParameters.setNewParameters (LWE params).serializedFields = some other ∧
      other.securityBits = readSecurityBits params.securityBits ∧
      other.polyDegree = params.polyDegree ∧ other.nbModuli = params.nbModuli ∧
      other.absPerCoordinateBitsize = readAbsorption params.absPerCoordinateBitsize := by
  have pos := params.nbModuli_pos
  have le : params.nbModuli ≤ 17 := params.nbModuli_le
  have modulus : (atoi (toText (getmodulusBitsizeLWE params))).toNat = params.nbModuli * 60 := by
    rw [getmodulusBitsizeLWE, kModulusBitsize, atoi_toText (by omega), UInt32.toNat_ofNat']
    omega
  have nbModuli_eq : params.nbModuli * 60 / kModulusBitsize % 2 ^ 16 = params.nbModuli := by
    rw [kModulusBitsize]
    omega
  simp only [serializedFields, latticeFields, LWEParameters.setNewParameters, modulus, nbModuli_eq,
    atoi_toText_toNat, atoi_getsecurityBits]
  rw [if_neg (by simp [kModulusBitsize]),
    dif_pos ⟨pos, params.nbModuli_le, params.polyDegree_pos, params.polyDegree_le⟩]
  exact ⟨_, rfl, rfl, rfl, rfl, atoi_absorptionText _⟩

/-- One of the three objects is chosen by all the sizes that are read. -/
theorem fvobject_of_setNewParameters {name security degree modulus plainbits : List Char}
    {rest : List (List Char)} {other : FVParameters}
    (reads : FVParameters.setNewParameters
      (name :: security :: degree :: modulus :: plainbits :: rest) = some other) :
    (atoi degree = other.fvobject.polyDegree ∧
      atoi modulus = other.fvobject.aggregatedModulusBitsize ∧
      atoi plainbits = other.fvobject.plainbits) ∧
      other.absPerCoordinateBitsize = absorptionOf rest := by
  simp only [FVParameters.setNewParameters] at reads
  split at reads
  next chosen =>
    cases reads
    exact ⟨chosen.1, rfl⟩
  next =>
    split at reads
    next chosen =>
      cases reads
      exact ⟨chosen.1, rfl⟩
    next =>
      split at reads
      next chosen =>
        cases reads
        exact ⟨chosen.1, rfl⟩
      next => exact absurd reads (by simp)

/-- The plaintext size that is read is the absorption that has been written. -/
theorem setNewParameters_FV {params other : FVParameters}
    (reads : FVParameters.setNewParameters (FV params).serializedFields = some other) :
    other.fvobject = params.fvobject ∧ other.absPerCoordinateBitsize = -1 ∧
      params.absPerCoordinateBitsize ≠ -1 := by
  rcases fvobject_of_setNewParameters reads with ⟨⟨degree, modulus, plainbits⟩, unset⟩
  refine ⟨?_, unset, ?_⟩
  · rw [atoi_toText_toNat] at degree
    rw [getmodulusBitsizeFV] at modulus
    revert degree modulus
    cases params.fvobject <;> cases other.fvobject <;> decide
  · intro undefined
    rw [undefined] at plainbits
    revert plainbits
    cases other.fvobject <;> decide

theorem setNewParameters_Paillier (keygen : Keygen) {params : PaillierParameters}
    (primes : Nonempty (KeyPrimes params.bitKeySize.toNat)) :
    ∃ other, PaillierParameters.setNewParameters keygen (Paillier params).serializedFields =
        some other ∧ other.securityBits = params.securityBits ∧
      other.bitKeySize = params.bitKeySize ∧ other.initS = 1 := by
  have isSome : (keygen.draw (atoi (toText params.bitKeySize.toNat)).toNat).isSome :=
    keygen.draw_isSome _ (by rwa [atoi_toText_toNat])
  rcases Option.isSome_iff_exists.mp isSome with ⟨drawn, draws⟩
  simp only [serializedFields, PaillierParameters.setNewParameters, draws, Option.map_some]
  exact ⟨_, rfl, atoi_toText_toNat _, atoi_toText_toNat _, rfl⟩

end Reading

/--
The object built from the text of another one, if there is one, has its shape; it gives
the same text exactly if the other object is described by it.
-/
theorem getSerializedParams_getCryptoMethod_iff (keygen : Keygen) {crypto : CryptoMethod}
    (configured : crypto.Configured) :
    match getCryptoMethod keygen crypto.getSerializedParams with
    | some other => SameShape crypto other ∧ other.Configured ∧
        (other.getSerializedParams = crypto.getSerializedParams ↔ crypto.Described)
    | none => ¬ crypto.Described := by
  rw [getCryptoMethod_getSerializedParams]
  cases crypto with
  | LWE params =>
      rcases setNewParameters_LWE params with
        ⟨other, reads, security, degree, nbModuli, absorption⟩
      simp only [reads, Option.map_some]
      refine ⟨.LWE degree nbModuli, trivial, ?_⟩
      simp only [getSerializedParams_inj, serializedFields, latticeFields, security, degree,
        getmodulusBitsizeLWE, nbModuli, absorption, List.cons.injEq, true_and, and_true,
        toText_inj, getsecurityBits_readSecurityBits_iff, absorptionText_readAbsorption_iff,
        Described]
  | FV params =>
      cases reads : FVParameters.setNewParameters (FV params).serializedFields with
      | none =>
          simp only [reads, Option.map_none]
          exact id
      | some other =>
          rcases setNewParameters_FV reads with ⟨fvobject_eq, unset, set⟩
          simp only [reads, Option.map_some]
          refine ⟨.FV fvobject_eq, trivial, iff_of_false ?_ id⟩
          intro same
          simp only [getSerializedParams_inj, serializedFields, latticeFields, unset,
            List.cons.injEq, true_and, and_true, absorptionText, set, if_true, if_false] at same
          have question : '?' ∉ toTextInt params.absPerCoordinateBitsize := by
            rw [toTextInt]
            split
            · simp only [List.mem_cons, not_or]
              exact ⟨by decide, fun mem => absurd (isDigit_of_mem_toText mem) (by decide)⟩
            · exact fun mem => absurd (isDigit_of_mem_toText mem) (by decide)
          exact question (same.2.2.2 ▸ List.mem_singleton_self _)
  | Paillier params =>
      rcases setNewParameters_Paillier keygen configured.2 with
        ⟨other, reads, security, bitKeySize, initS⟩
      simp only [reads, Option.map_some]
      refine ⟨.Paillier bitKeySize configured.1 initS, ⟨initS, bitKeySize ▸ configured.2⟩, ?_⟩
      simp only [getSerializedParams, serializedFields, security, bitKeySize, Described]

/-! ## The key of the other end -/

/-- The number of bits of a key is computed without overflow. -/
def KeyFits : CryptoMethod → Prop
  | Paillier params => params.bitKeySize.toNat + 32 ≤ 2 ^ 32
  | _ => True

/-- The size of a query element is that of a ciphertext, and does not overflow. -/
def ElementsFit : CryptoMethod → Prop
  | LWE params => params.nbModuli ≤ 15 ∧ params.nbModuli * params.polyDegree.toNat < 2 ^ 25
  | _ => True

/-- The two objects handle query elements in the same way. -/
structure SameElements (crypto other : CryptoMethod) : Prop where
  sizes : ∀ lvl, other.getQuerySizeFromRecLvl lvl = crypto.getQuerySizeFromRecLvl lvl
  readBytes_eq : other.readBytes = crypto.readBytes
  queryCell_eq : other.queryCell = crypto.queryCell

section ElementSizes

variable {params : LWEParameters} (lvl : UInt32)

theorem toNat_getQuerySizeFromRecLvl_LWE :
    ((LWE params).getQuerySizeFromRecLvl lvl).toNat =
      128 * ((params.nbModuli * 60 + 63) / 64 * params.polyDegree.toNat) % 2 ^ 32 := by
  have le : params.nbModuli ≤ 17 := params.nbModuli_le
  have bits_lt : (params.nbModuli * 60 + 63) / 64 * 64 < 2 ^ 32 := by omega
  rw [getQuerySizeFromRecLvl, UInt32.toNat_mul, UInt32.toNat_mul, UInt32.toNat_ofNat',
    getModulusRepresentationBitsize, getmodulusBitsizeLWE, kModulusBitsize,
    Nat.mod_eq_of_lt bits_lt]
  change (_ % 2 ^ 32) * 2 % 2 ^ 32 = _
  rw [Nat.mod_mul_mod]
  congr 1
  ring

/-- A modulus of 60 bits takes 64 bits of a ciphertext and at most as many of its size. -/
theorem querySize_le_LWE :
    ((LWE params).getQuerySizeFromRecLvl lvl).toNat / 8 ≤ (LWE params).elementSize lvl := by
  have words_le : (params.nbModuli * 60 + 63) / 64 ≤ params.nbModuli := by omega
  have product_le := Nat.mul_le_mul_right params.polyDegree.toNat words_le
  rw [toNat_getQuerySizeFromRecLvl_LWE, elementSize, ciphertextBytes]
  omega

theorem querySize_eq_LWE (fits : (LWE params).ElementsFit) :
    ((LWE params).getQuerySizeFromRecLvl lvl).toNat / 8 = (LWE params).elementSize lvl := by
  rcases fits with ⟨few, small⟩
  have words_eq : (params.nbModuli * 60 + 63) / 64 = params.nbModuli := by omega
  rw [toNat_getQuerySizeFromRecLvl_LWE, elementSize, ciphertextBytes, words_eq]
  omega

theorem querySize_lt_LWE (overflow : ¬ (LWE params).ElementsFit) :
    ((LWE params).getQuerySizeFromRecLvl lvl).toNat / 8 < (LWE params).readBytes := by
  rw [toNat_getQuerySizeFromRecLvl_LWE, readBytes, ciphertextBytes]
  by_cases few : params.nbModuli ≤ 15
  · have large : 2 ^ 25 ≤ params.nbModuli * params.polyDegree.toNat :=
      Nat.le_of_not_lt fun small => overflow ⟨few, small⟩
    omega
  · have words_lt : (params.nbModuli * 60 + 63) / 64 < params.nbModuli := by omega
    have product_lt := Nat.mul_lt_mul_of_pos_right words_lt params.polyDegree_pos
    omega

theorem querySize_eq_FV (params : FVParameters) :
    ((FV params).getQuerySizeFromRecLvl lvl).toNat / 8 = (FV params).elementSize lvl := by
  have sizes : ∀ fvobject : FVobject,
      (UInt32.ofNat (getModulusRepresentationBitsize
        (fvobject.aggregatedModulusBitsize.toNat / 62 * 62)) * fvobject.polyDegree * 2).toNat / 8 =
      ciphertextBytes fvobject.polyDegree fvobject.nbModuli := by
    intro fvobject
    cases fvobject <;> decide
  exact sizes params.fvobject

end ElementSizes

/-- No element is sent beyond its end. -/
theorem querySize_le {crypto : CryptoMethod} (configured : crypto.Configured) (lvl : UInt32) :
    (crypto.getQuerySizeFromRecLvl lvl).toNat / 8 ≤ crypto.elementSize lvl := by
  cases crypto with
  | LWE params => exact querySize_le_LWE lvl
  | FV params => exact (querySize_eq_FV lvl params).le
  | Paillier params =>
      rw [getQuerySizeFromRecLvl, elementSize, configured.1, UInt32.mul_comm]
      exact le_rfl

/-- The elements are sent as a whole as long as they fit. -/
theorem querySize_eq {crypto : CryptoMethod} (configured : crypto.Configured)
    (fits : crypto.ElementsFit) (lvl : UInt32) :
    (crypto.getQuerySizeFromRecLvl lvl).toNat / 8 = crypto.elementSize lvl := by
  cases crypto with
  | LWE params => exact querySize_eq_LWE lvl fits
  | FV params => exact querySize_eq_FV lvl params
  | Paillier params =>
      rw [getQuerySizeFromRecLvl, elementSize, configured.1, UInt32.mul_comm]
      rfl

theorem readBytes_le_iff (crypto : CryptoMethod) (lvl : UInt32) :
    crypto.readBytes ≤ (crypto.getQuerySizeFromRecLvl lvl).toNat / 8 ↔ crypto.ElementsFit := by
  cases crypto with
  | LWE params =>
      constructor
      · intro inside
        by_contra overflow
        have short := querySize_lt_LWE lvl overflow
        omega
      · intro fits
        rw [querySize_eq_LWE lvl fits]
        exact le_rfl
  | FV params => exact iff_of_true (querySize_eq_FV lvl params).ge trivial
  | Paillier params => exact iff_of_true (Nat.zero_le _) trivial

theorem SameShape.elementsFit_iff {crypto other : CryptoMethod} (shape : SameShape crypto other) :
    crypto.ElementsFit ↔ other.ElementsFit := by
  cases shape with
  | LWE degree nbModuli => simp only [ElementsFit, degree, nbModuli]
  | FV => exact Iff.rfl
  | Paillier => exact Iff.rfl

/-- No key is set if there are no bytes. -/
def receiveKey (crypto : CryptoMethod) (key : List UInt8) : Option CryptoMethod :=
  if key = [] then some crypto else crypto.setModulus key

@[simp]
theorem length_sentKey (crypto : CryptoMethod) (beyond : ℕ → UInt8) :
    (crypto.sentKey beyond).length = crypto.keySize := by
  rw [sentKey, List.length_map, List.length_range]

theorem length_getByteModulus_Paillier (params : PaillierParameters) :
    (Paillier params).getByteModulus.length = params.bitKeySize.toNat / 8 + 4 := by
  simp only [getByteModulus, List.length_append, List.length_take, List.length_replicate,
    length_writeInt]
  omega

theorem keySize_lt (crypto : CryptoMethod) : crypto.keySize < 2 ^ 32 := by
  rw [keySize]
  cases crypto with
  | LWE params =>
      have le : params.nbModuli ≤ 17 := params.nbModuli_le
      rw [getSerializedModulusBitsize, getModulusRepresentationBitsize, getmodulusBitsizeLWE,
        kModulusBitsize]
      omega
  | FV params =>
      have lt := params.fvobject.aggregatedModulusBitsize.toNat_lt
      rw [getSerializedModulusBitsize, getModulusRepresentationBitsize, getmodulusBitsizeFV]
      omega
  | Paillier params =>
      have lt := (params.bitKeySize + 32).toNat_lt
      rw [getSerializedModulusBitsize]
      omega

/-- The memory of the key is sent as a whole if there are enough bytes. -/
theorem exists_sentKey_eq (crypto : CryptoMethod) (beyond : ℕ → UInt8)
    (enough : crypto.getByteModulus.length ≤ crypto.keySize) :
    ∃ rest, crypto.sentKey beyond = crypto.getByteModulus ++ rest := by
  refine ⟨(crypto.sentKey beyond).drop crypto.getByteModulus.length, ?_⟩
  have front : (crypto.sentKey beyond).take crypto.getByteModulus.length =
      crypto.getByteModulus := by
    apply List.ext_getElem
    · simpa using enough
    · intro i _ i_lt
      simp [sentKey, i_lt]
  conv_lhs => rw [← List.take_append_drop crypto.getByteModulus.length (crypto.sentKey beyond)]
  rw [front]

/--
After the key has been received, the query elements have the same size at both ends. If
the number of its bits overflows, what is sent of it ends before the exponent.
-/
theorem receiveKey_sentKey {client server : CryptoMethod} (shape : SameShape client server)
    (beyond : ℕ → UInt8) :
    (client.KeyFits → ∃ keyed, server.receiveKey (client.sentKey beyond) = some keyed ∧
      keyed.getSerializedParams = server.getSerializedParams ∧ client.SameElements keyed) ∧
    (¬ client.KeyFits → server.receiveKey (client.sentKey beyond) = none) := by
  cases shape with
  | @LWE params other degree nbModuli =>
      refine ⟨fun _ => ⟨LWE other, ?_, rfl, fun _ => ?_, ?_, rfl⟩,
        fun overflow => absurd trivial overflow⟩
      · rw [receiveKey, setModulus, ite_self]
      · simp only [getQuerySizeFromRecLvl, getmodulusBitsizeLWE, degree, nbModuli]
      · simp only [readBytes, degree, nbModuli]
  | @FV params other fvobject_eq =>
      refine ⟨fun _ => ⟨FV other, ?_, rfl, fun _ => ?_, ?_, rfl⟩,
        fun overflow => absurd trivial overflow⟩
      · rw [receiveKey, setModulus, ite_self]
      · simp only [getQuerySizeFromRecLvl, getmodulusBitsizeFV, fvobject_eq]
      · simp only [readBytes, fvobject_eq]
  | @Paillier params other bitKeySize_eq initS initS' =>
      have bits_lt := params.bitKeySize.toNat_lt
      have keySize_eq : (Paillier params).keySize =
          ((params.bitKeySize.toNat + 32) % 2 ^ 32 + 7) / 8 := by
        rw [keySize, getSerializedModulusBitsize, UInt32.toNat_add]
        rfl
      constructor
      · intro fits
        rw [KeyFits] at fits
        by_cases empty : (Paillier params).sentKey beyond = []
        · refine ⟨Paillier other, by rw [receiveKey, if_pos empty], rfl, fun lvl => ?_, rfl, rfl⟩
          simp only [getQuerySizeFromRecLvl, bitKeySize_eq, initS, initS']
        · have size_ne : (Paillier params).keySize ≠ 0 := by
            rwa [← length_sentKey _ beyond, Ne, List.length_eq_zero_iff]
          have enough : (Paillier params).getByteModulus.length ≤ (Paillier params).keySize := by
            rw [length_getByteModulus_Paillier]
            omega
          rcases exists_sentKey_eq _ beyond enough with ⟨rest, sent_eq⟩
          have exponent : readInt (((Paillier params).sentKey beyond).drop
              (params.bitKeySize.toNat / 8)) = some (1, rest) := by
            rw [sent_eq, getByteModulus, List.append_assoc,
              List.drop_left' (by rw [List.length_take, List.length_append,
                List.length_replicate]; omega), initS]
            exact readInt_writeInt 1 rest
          refine ⟨Paillier { other with
            n := mpzImport (((Paillier params).sentKey beyond).take (params.bitKeySize.toNat / 8))
            initS := 1 }, ?_, rfl, fun lvl => ?_, rfl, rfl⟩
          · simp only [receiveKey, if_neg empty, setModulus, bitKeySize_eq, exponent,
              Option.map_some]
            rfl
          · simp only [getQuerySizeFromRecLvl, bitKeySize_eq, initS]
      · intro overflow
        rw [KeyFits] at overflow
        have nonempty : (Paillier params).sentKey beyond ≠ [] := by
          rw [Ne, ← List.length_eq_zero_iff, length_sentKey]
          omega
        have short : ((Paillier params).sentKey beyond).drop (params.bitKeySize.toNat / 8) = [] := by
          rw [List.drop_eq_nil_iff, length_sentKey]
          omega
        simp only [receiveKey, if_neg nonempty, setModulus, bitKeySize_eq, short]
        rfl

end CryptoMethod

end Xpir
