import Xpir.NFLlib.Bitsplitter
import Xpir.ReplyGenerator.PIRReplyGeneratorNFL

/-!
# Sizes of replies

The number of ciphertexts of a reply is computed in five places: the server announces
it, the import of the data and of the intermediate replies produces polynomials, and
the client counts the ciphertexts to read, those to decrypt at each level, and the
plaintexts to pass on. An element of some bytes is cut into plaintexts, each plaintext
becomes a ciphertext, and at the next level these bytes are cut into plaintexts again.

The server and the download use `double`. The extraction takes the number of bytes as
an `int` and computes in `float`, of 24 significant bits. This file contains the five
computations, and the numbers without any rounding that they are compared with.
-/

namespace Xpir

/-- Conversion to `unsigned int`, not defined for numbers out of its range. -/
def toUnsigned (value : ℕ) : Option ℕ := if value < 2 ^ 32 then some value else none

/-- Conversion to `unsigned long`, not defined for numbers out of its range. -/
def toUnsignedLong (value : ℤ) : Option ℕ :=
  if 0 ≤ value ∧ value < 2 ^ 64 then some value.toNat else none

/-- Conversion to `int`. -/
def toInt (value : ℕ) : ℤ :=
  if value % 2 ^ 32 < 2 ^ 31 then (value % 2 ^ 32 : ℕ) else (value % 2 ^ 32 : ℕ) - 2 ^ 32

/-- The operations on `float` for numbers that may be negative. -/
def signedToFloat (x : ℚ) : ℚ := if x < 0 then -toFloat (-x) else toFloat x

/-- A number that is converted anew at each level. -/
def levelLoop (levels : ℕ) (next : ℕ → Option ℕ) (first : Option ℕ) : Option ℕ :=
  forLoop levels (fun _ number => number.bind next) first

section Counters

variable {range fuel count : ℕ}

theorem counterLoop_count (inside : count < range) (enough : count < fuel) :
    counterLoop range fuel count (fun _ done => some (done + 1)) 0 = some count := by
  rcases counterLoop_total range fuel count (fun _ done => some (done + 1)) 0
    (fun i done => done = i) rfl (fun i done _ done_eq => ⟨done + 1, rfl, by rw [done_eq]⟩)
    inside enough with ⟨final, runs, rfl⟩
  exact runs

theorem eq_of_counterLoop_count {final : ℕ} (range_pos : 0 < range)
    (returns : counterLoop range fuel count (fun _ done => some (done + 1)) 0 = some final) :
    final = count := by
  have inside : count < range := by
    by_contra outside
    rw [counterLoop_eq_none range_pos (not_lt.mp outside)] at returns
    exact absurd returns (by simp)
  refine counterLoop_invariant (fun i done => done = i) inside ?_ rfl returns
  intro i done next _ done_eq steps
  rw [← Option.some.inj steps, done_eq]

end Counters

section Levels

variable {levels : ℕ} {next : ℕ → Option ℕ} {first : Option ℕ}

theorem levelLoop_eq (numbers : ℕ → ℕ) (first_eq : first = some (numbers 0))
    (next_eq : ∀ level < levels, next (numbers level) = some (numbers (level + 1))) :
    levelLoop levels next first = some (numbers levels) := by
  apply forLoop_induction levels _ _ (fun level number => number = some (numbers level)) first_eq
  rintro level _ level_lt rfl
  exact next_eq level level_lt

/-- If a loop over the levels has a result, then it has one at each level. -/
theorem exists_of_levelLoop {last : ℕ} (returns : levelLoop levels next first = some last) :
    ∃ numbers : ℕ → ℕ, first = some (numbers 0) ∧
      (∀ level < levels, next (numbers level) = some (numbers (level + 1))) ∧
      numbers levels = last := by
  induction levels generalizing last with
  | zero => exact ⟨fun _ => last, returns, fun level level_lt => absurd level_lt (by omega), rfl⟩
  | succ levels ih =>
      rcases Option.bind_eq_some_iff.mp returns with ⟨before, earlier, last_eq⟩
      rcases ih earlier with ⟨numbers, first_eq, next_eq, before_eq⟩
      refine ⟨Function.update numbers (levels + 1) last, ?_, ?_, Function.update_self ..⟩
      · rw [Function.update_of_ne (Nat.succ_ne_zero levels).symm]
        exact first_eq
      · intro level level_lt
        rw [Function.update_of_ne (by omega)]
        rcases Nat.lt_succ_iff_lt_or_eq.mp level_lt with lower | rfl
        · rw [Function.update_of_ne (by omega)]
          exact next_eq level lower
        · rw [Function.update_self, before_eq, last_eq]

end Levels

/-- The sizes of plaintexts and ciphertexts, in bits. -/
structure PublicParameters where
  absorptionBitsize : ℕ
  ciphertextBitsize : ℕ

namespace PublicParameters

variable (params : PublicParameters) (pirParams : PIRParameters)

/-- The bytes of a plaintext. -/
def absorptionBytesize : ℕ := params.absorptionBitsize / 8

/-- The bytes of a ciphertext, as it is decrypted. -/
def ciphertextBytesize : ℕ := params.ciphertextBitsize / 8

section Server

/-- The number of ciphertexts that the server announces. -/
def computeReplySizeInChunks (maxFileBytesize : ℕ) : Option ℕ :=
  levelLoop (pirParams.d - 1)
    (fun out => toUnsigned ⌈toDouble (toDouble (out * toDouble params.ciphertextBytesize) /
      toDouble params.absorptionBytesize)⌉₊)
    (toUnsigned ⌈toDouble (toDouble (toDouble (toDouble maxFileBytesize * 8) *
      toDouble pirParams.alpha) / toDouble params.absorptionBitsize)⌉₊)

/-- The number of polynomials that `deserializeDataNFL` makes of some buffers. -/
def deserializedPolys (nbrOfBuffers dataBitsizePerBuffer : ℕ) : ℕ :=
  ⌈toDouble (toDouble (toDouble dataBitsizePerBuffer * toDouble nbrOfBuffers) /
    toDouble params.absorptionBitsize)⌉₊

/-- The bytes of each file that `importDataNFL` reads. -/
def fileByteSize (maxFileBytesize offset bytesPerFile : ℕ) : ℕ :=
  min bytesPerFile (wordSub maxFileBytesize offset)

/-- The number of polynomials of an imported element. -/
def importedPolys (maxFileBytesize offset bytesPerFile : ℕ) : ℕ :=
  params.deserializedPolys 1
    (fileByteSize maxFileBytesize offset bytesPerFile * pirParams.alpha * 8 % 2 ^ 64)

end Server

section Client

/-- The bytes of an aggregated element. -/
def aggregatedFileSize (maxFileBytesize : ℕ) : ℕ := maxFileBytesize * pirParams.alpha % 2 ^ 64

/-- The number of ciphertexts that `extractReply` computes at a level. -/
def ciphertextNbr (recLvl : ℕ) (aggregatedMaxFileSize : ℤ) : Option ℕ :=
  levelLoop (recLvl - 1)
    (fun number => toUnsignedLong ⌈toFloat (toFloat (toFloat number *
      toFloat params.ciphertextBytesize) / toFloat params.absorptionBytesize)⌉)
    (toUnsignedLong ⌈signedToFloat (signedToFloat aggregatedMaxFileSize /
      toFloat params.absorptionBytesize)⌉)

/-- The number of replies that `extractReply` takes from the queue. -/
def poppedReplies (fuel maxFileBytesize : ℕ) : Option ℕ :=
  (params.ciphertextNbr pirParams.d (toInt (aggregatedFileSize pirParams maxFileBytesize))).bind
    fun number => counterLoop (2 ^ 32) fuel number (fun _ popped => some (popped + 1)) 0

/-- The number of ciphertexts that the client computes before it downloads them. -/
def paquetNbr (maxFileBytesize : ℕ) : ℕ :=
  forLoop (pirParams.d - 1)
    (fun _ number => ⌈toDouble (toDouble (number * toDouble params.ciphertextBytesize) /
      toDouble params.absorptionBytesize)⌉₊)
    ⌈toDouble (toDouble (aggregatedFileSize pirParams maxFileBytesize) /
      toDouble params.absorptionBytesize)⌉₊

/-- The number of ciphertexts that `downloadWorker` reads. -/
def downloadedReplies (fuel maxFileBytesize : ℕ) : Option ℕ :=
  counterLoop (2 ^ 32) fuel (params.paquetNbr pirParams maxFileBytesize)
    (fun _ downloaded => some (downloaded + 1)) 0

/-- The number of plaintexts that the client passes on. -/
def getnbPlaintextReplies (maxFileBytesize : ℕ) : Option ℕ :=
  toUnsignedLong ⌈toFloat (toFloat (toFloat maxFileBytesize * toFloat pirParams.alpha) /
    toFloat params.absorptionBytesize)⌉

end Client

/-- The number of plaintexts that some bytes are cut into, at each level. -/
def plaintexts (bytes : ℕ) : ℕ → ℕ
  | 0 => bytes ⌈/⌉ params.absorptionBytesize
  | level + 1 => plaintexts bytes level * params.ciphertextBytesize ⌈/⌉ params.absorptionBytesize

/-- The sizes are those of a cryptosystem with the given public parameters. -/
structure HasSizes (poly : PolyShape) (absPerCoordinateBitsize : ℕ) : Prop where
  degree : 8 ∣ poly.polyDegree
  abs_pos : 0 < absPerCoordinateBitsize
  abs_lt : absPerCoordinateBitsize < poly.nbModuli * NFLlib.kModulusBitsize
  absorption : params.absorptionBitsize = poly.polyDegree * absPerCoordinateBitsize
  ciphertext : params.ciphertextBitsize = poly.getCiphertextBitsize

/-- A number of bytes whose quotient is not rounded over the end of the given plaintext. -/
def StaysWithin (size : ℚ) (count : ℕ) : Prop :=
  ¬ RoundsDownTo 24 (count - 1) (size / params.absorptionBytesize) ∧
    RoundsDownTo 24 count (size / params.absorptionBytesize)

/-- The bytes of some ciphertexts, as the extraction rounds them. -/
def roundedBytes (number : ℕ) : ℚ := toFloat (toFloat number * params.ciphertextBytesize)

/--
Numbers of plaintexts, one for each level, such that the bytes of a level, as they are rounded,
stay within as many plaintexts.
-/
structure Extracts (levels bytes : ℕ) (numbers : ℕ → ℕ) : Prop where
  isPositive : 0 < toInt bytes
  first : params.StaysWithin (toFloat (toInt bytes)) (numbers 0)
  next : ∀ level, level + 1 < levels →
    params.StaysWithin (params.roundedBytes (numbers level)) (numbers (level + 1))

/--
The number of bytes is an `int`, and no number of bytes is rounded over the end of its last
plaintext, at any level.
-/
structure KeepsChunks (levels bytes : ℕ) : Prop where
  isInt : bytes < 2 ^ 31
  first : params.StaysWithin (toFloat bytes) (params.plaintexts bytes 0)
  next : ∀ level, level + 1 < levels →
    params.StaysWithin (params.roundedBytes (params.plaintexts bytes level))
      (params.plaintexts bytes (level + 1))

end PublicParameters

namespace LatticesBasedCryptosystem

variable {Poly Cipher : Type} (crypto : LatticesBasedCryptosystem Poly Cipher)
  (pirParams : PIRParameters)

def publicParams : PublicParameters where
  absorptionBitsize := crypto.absorptionBitsize
  ciphertextBitsize := crypto.ciphertextBitsize

/-- The number of polynomials, and so of ciphertexts, at the last level. -/
def producedPolys (maxFileBytesize offset bytesPerFile : ℕ) : ℕ :=
  crypto.levelPolys (crypto.publicParams.importedPolys pirParams maxFileBytesize offset bytesPerFile)
    (pirParams.d - 1)

/-- All parties work with the same number of chunks. -/
def AgreeOnChunks (maxFileBytesize offset bytesPerFile : ℕ) : Prop :=
  ∃ fuel count,
    crypto.publicParams.computeReplySizeInChunks pirParams bytesPerFile = some count ∧
    crypto.producedPolys pirParams maxFileBytesize offset bytesPerFile = count ∧
    crypto.publicParams.poppedReplies pirParams fuel bytesPerFile = some count ∧
    crypto.publicParams.downloadedReplies pirParams fuel bytesPerFile = some count ∧
    (pirParams.d = 1 →
      crypto.publicParams.getnbPlaintextReplies pirParams bytesPerFile = some count)

end LatticesBasedCryptosystem

namespace PublicParameters

variable (params : PublicParameters) {pirParams : PIRParameters}

theorem plaintexts_zero (bytes : ℕ) :
    params.plaintexts bytes 0 = bytes ⌈/⌉ params.absorptionBytesize := rfl

section Bounds

/-- What the sizes of a cryptosystem have in common. -/
structure SizeBounds : Prop where
  absorption_eq : params.absorptionBitsize = 8 * params.absorptionBytesize
  ciphertext_eq : params.ciphertextBitsize = 8 * params.ciphertextBytesize
  absorption_pos : 0 < params.absorptionBytesize
  absorption_bound : params.absorptionBytesize ≤ 1024 * 1019
  ciphertext_le : params.ciphertextBytesize ≤ 2 ^ 21
  aligned : 128 ∣ params.ciphertextBytesize
  expansion : 2048 * params.absorptionBytesize ≤ 1023 * params.ciphertextBytesize

variable {params}

theorem HasSizes.bounds {poly : PolyShape} {absPerCoordinateBitsize : ℕ}
    (sizes : params.HasSizes poly absPerCoordinateBitsize) : params.SizeBounds := by
  rcases sizes.degree with ⟨degree, degree_eq⟩
  have degree_pos := poly.polyDegree_pos
  have degree_le := poly.polyDegree_le
  have nbModuli_pos := poly.nbModuli_pos
  have nbModuli_le := poly.nbModuli_le
  have abs_pos := sizes.abs_pos
  have abs_lt := sizes.abs_lt
  rw [NFLlib.kMaxPolyDegree] at degree_le
  rw [NFLlib.kMaxNbModuli] at nbModuli_le
  rw [NFLlib.kModulusBitsize] at abs_lt
  have absorption_eq : params.absorptionBitsize = 8 * (degree * absPerCoordinateBitsize) := by
    rw [sizes.absorption, degree_eq, Nat.mul_assoc]
  have words_eq : poly.nbModuli * NFLlib.kModulusBitsize ⌈/⌉ 64 = (poly.nbModuli * 60 + 63) / 64 := by
    rw [Nat.ceilDiv_eq_add_pred_div, NFLlib.kModulusBitsize]
    rfl
  have ciphertext_eq : params.ciphertextBitsize =
      8 * (128 * ((poly.nbModuli * 60 + 63) / 64 * degree)) := by
    rw [sizes.ciphertext, poly.getCiphertextBitsize_eq, words_eq, degree_eq]
    ring
  have absorption_bytes : params.absorptionBytesize = degree * absPerCoordinateBitsize := by
    rw [absorptionBytesize, absorption_eq, Nat.mul_div_cancel_left _ (by decide)]
  have ciphertext_bytes :
      params.ciphertextBytesize = 128 * ((poly.nbModuli * 60 + 63) / 64 * degree) := by
    rw [ciphertextBytesize, ciphertext_eq, Nat.mul_div_cancel_left _ (by decide)]
  have degree_small : degree ≤ 1024 := by omega
  have degree_large : 1 ≤ degree := by omega
  have words_le : (poly.nbModuli * 60 + 63) / 64 ≤ 16 := by omega
  have abs_le : absPerCoordinateBitsize ≤ 1019 := by omega
  have ratio : 2048 * absPerCoordinateBitsize ≤ 1023 * (128 * ((poly.nbModuli * 60 + 63) / 64)) := by
    omega
  refine ⟨?_, ?_, ?_, ?_, ?_, ?_, ?_⟩
  · rw [absorption_bytes, absorption_eq]
  · rw [ciphertext_bytes, ciphertext_eq]
  · rw [absorption_bytes]
    exact Nat.mul_pos degree_large abs_pos
  · rw [absorption_bytes]
    exact Nat.mul_le_mul degree_small abs_le
  · rw [ciphertext_bytes]
    exact Nat.mul_le_mul_left 128 (Nat.mul_le_mul words_le degree_small)
  · rw [ciphertext_bytes]
    exact Nat.dvd_mul_right 128 _
  · rw [absorption_bytes, ciphertext_bytes]
    calc 2048 * (degree * absPerCoordinateBitsize)
        = 2048 * absPerCoordinateBitsize * degree := by ring
      _ ≤ 1023 * (128 * ((poly.nbModuli * 60 + 63) / 64)) * degree := Nat.mul_le_mul_right _ ratio
      _ = 1023 * (128 * ((poly.nbModuli * 60 + 63) / 64 * degree)) := by ring

theorem SizeBounds.absorption_lt (bounds : params.SizeBounds) :
    params.absorptionBytesize < 2 ^ 20 :=
  bounds.absorption_bound.trans_lt (by decide)

theorem SizeBounds.absorption_le (bounds : params.SizeBounds) :
    params.absorptionBytesize ≤ params.ciphertextBytesize := by
  have expansion := bounds.expansion
  omega

theorem SizeBounds.plaintexts_pos (bounds : params.SizeBounds) {bytes : ℕ} (bytes_pos : 0 < bytes)
    (level : ℕ) : 0 < params.plaintexts bytes level := by
  have larger := bounds.absorption_le
  have positive := bounds.absorption_pos
  induction level with
  | zero => exact ceilDiv_pos positive bytes_pos
  | succ level ih => exact ceilDiv_pos positive (Nat.mul_pos ih (positive.trans_le larger))

/-- No level has fewer plaintexts than the one before. -/
theorem SizeBounds.plaintexts_mono (bounds : params.SizeBounds) (bytes : ℕ) :
    Monotone (params.plaintexts bytes) := by
  apply monotone_nat_of_le_succ
  intro level
  have ciphertext_pos := bounds.absorption_pos.trans_le bounds.absorption_le
  have inside := (ceilDiv_le_iff_le_mul bounds.absorption_pos).mp
    (le_refl (params.plaintexts bytes (level + 1)))
  apply Nat.le_of_mul_le_mul_right _ ciphertext_pos
  calc params.plaintexts bytes level * params.ciphertextBytesize
      ≤ params.absorptionBytesize * params.plaintexts bytes (level + 1) := inside
    _ ≤ params.ciphertextBytesize * params.plaintexts bytes (level + 1) :=
        Nat.mul_le_mul_right _ bounds.absorption_le
    _ = params.plaintexts bytes (level + 1) * params.ciphertextBytesize := Nat.mul_comm _ _

/-- The difference of two numbers of plaintexts does not vanish at the next level. -/
theorem SizeBounds.ceilDiv_strictMono (bounds : params.SizeBounds) :
    StrictMono fun number : ℕ => number * params.ciphertextBytesize ⌈/⌉ params.absorptionBytesize := by
  apply strictMono_nat_of_lt_succ
  intro number
  have larger := bounds.absorption_le
  have positive := bounds.absorption_pos
  have inside := (ceilDiv_le_iff_le_mul positive).mp
    (le_refl ((number + 1) * params.ciphertextBytesize ⌈/⌉ params.absorptionBytesize))
  generalize (number + 1) * params.ciphertextBytesize ⌈/⌉ params.absorptionBytesize = count at *
  rw [Nat.succ_mul] at inside
  have count_pos : 0 < count := by
    by_contra zero
    rw [Nat.eq_zero_of_not_pos zero] at inside
    omega
  rw [Nat.lt_iff_le_pred count_pos, ceilDiv_le_iff_le_mul positive, Nat.mul_sub_one]
  omega

/-- The numbers of plaintexts at the last level are equal only if those at the first are. -/
theorem SizeBounds.plaintexts_eq_iff (bounds : params.SizeBounds) (left right level : ℕ) :
    params.plaintexts left level = params.plaintexts right level ↔
      params.plaintexts left 0 = params.plaintexts right 0 := by
  induction level with
  | zero => exact Iff.rfl
  | succ level ih => rw [← ih, plaintexts, plaintexts, bounds.ceilDiv_strictMono.injective.eq_iff]

theorem SizeBounds.plaintexts_le_plaintexts (bounds : params.SizeBounds) {left right : ℕ}
    (le : left ≤ right) (level : ℕ) :
    params.plaintexts left level ≤ params.plaintexts right level := by
  induction level with
  | zero =>
      rw [plaintexts, plaintexts, ceilDiv_le_iff_le_mul bounds.absorption_pos]
      exact le.trans ((ceilDiv_le_iff_le_mul bounds.absorption_pos).mp le_rfl)
  | succ level ih => exact bounds.ceilDiv_strictMono.monotone ih

end Bounds

end PublicParameters

end Xpir
