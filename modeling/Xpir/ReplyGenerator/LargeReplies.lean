import Xpir.ReplyGenerator.ReplySize

/-!
# Large replies

The sizes that are computed with `double` are exact as long as the number of ciphertexts is
of type `unsigned int`: a `double` has more bits than are needed for the number of bytes. All
larger numbers are out of the range of the conversion. No bound on the size of the
elements is assumed for this.
-/

namespace Xpir

section Doubles

theorem two_pow_le_roundTo {bits exponent : ℕ} {x : ℚ} (bits_pos : 0 < bits)
    (le : (2 : ℚ) ^ exponent ≤ x) : (2 : ℚ) ^ exponent ≤ roundTo bits x := by
  have pos : 0 < x := (by positivity : (0 : ℚ) < 2 ^ exponent).trans_le le
  have log_ge : (exponent : ℤ) ≤ Int.log 2 x := by
    rw [← Int.zpow_le_iff_le_log (by decide) pos, Nat.cast_ofNat, zpow_natCast]
    exact le
  calc (2 : ℚ) ^ exponent = 2 ^ (exponent : ℤ) := (zpow_natCast _ _).symm
    _ ≤ 2 ^ Int.log 2 x := zpow_le_zpow_right₀ (by norm_num) log_ge
    _ ≤ roundTo bits x := zpow_log_le_roundTo bits_pos pos

/-- A number of bits is a `double` if the number of bytes is. -/
theorem toDouble_eight_mul {bytes : ℕ} (bytes_lt : bytes < 2 ^ 53) :
    toDouble (8 * bytes : ℕ) = (8 * bytes : ℕ) := by
  rcases Nat.eq_zero_or_pos bytes with rfl | bytes_pos
  · exact toDouble_natCast (by decide)
  · have scaled : ((8 * bytes : ℕ) : ℚ) = bytes * 2 ^ (3 : ℤ) := by
      push_cast
      ring
    have bytes_cast : (0 : ℚ) < bytes := by exact_mod_cast bytes_pos
    rw [toDouble, scaled, roundTo_mul_zpow bytes_cast, roundTo_natCast bytes_lt]

theorem natCeil_toDouble_bits {bytes size : ℕ} (bytes_lt : bytes < 2 ^ 53) (size_lt : size < 2 ^ 53)
    (size_pos : 0 < size) :
    ⌈toDouble (toDouble (8 * bytes : ℕ) / toDouble (8 * size : ℕ))⌉₊ = bytes ⌈/⌉ size := by
  have size_cast : (size : ℚ) ≠ 0 := by exact_mod_cast size_pos.ne'
  have quotient : ((8 * bytes : ℕ) : ℚ) / (8 * size : ℕ) = (bytes : ℚ) / size := by
    push_cast
    exact mul_div_mul_left _ _ (by norm_num)
  rw [toDouble_eight_mul bytes_lt, toDouble_eight_mul size_lt, quotient]
  exact natCeil_roundTo_div bytes_lt size_pos

end Doubles

namespace PublicParameters

variable {params : PublicParameters} {pirParams : PIRParameters}

section Sizes

variable (bounds : params.SizeBounds)

include bounds

/-- Beyond the integers of a `double`, the number of plaintexts is out of range. -/
theorem SizeBounds.two_pow_le_first {size alpha : ℕ} (large : 2 ^ 53 ≤ size * alpha) :
    2 ^ 32 ≤ ⌈toDouble (toDouble (toDouble (toDouble size * 8) * toDouble alpha) /
      toDouble params.absorptionBitsize)⌉₊ := by
  have size_ne : size ≠ 0 := by
    rintro rfl
    omega
  have alpha_ne : alpha ≠ 0 := by
    rintro rfl
    omega
  have absorption_lt := bounds.absorption_lt
  have logs_ge : 52 ≤ Nat.log 2 size + Nat.log 2 alpha := by
    have product_lt : size * alpha < 2 ^ (Nat.log 2 size + 1 + (Nat.log 2 alpha + 1)) := by
      rw [pow_add]
      exact Nat.mul_lt_mul'' (Nat.lt_pow_succ_log_self (by decide) _)
        (Nat.lt_pow_succ_log_self (by decide) _)
    have := (Nat.pow_lt_pow_iff_right (by decide)).mp (large.trans_lt product_lt)
    omega
  have size_ge : (2 : ℚ) ^ Nat.log 2 size ≤ toDouble size :=
    two_pow_le_roundTo (by decide) (by exact_mod_cast Nat.pow_log_le_self 2 size_ne)
  have alpha_ge : (2 : ℚ) ^ Nat.log 2 alpha ≤ toDouble alpha :=
    two_pow_le_roundTo (by decide) (by exact_mod_cast Nat.pow_log_le_self 2 alpha_ne)
  have bits_ge : (2 : ℚ) ^ (Nat.log 2 size + 3) ≤ toDouble (toDouble size * 8) := by
    apply two_pow_le_roundTo (by decide)
    rw [pow_add]
    norm_num
    exact size_ge
  have product_ge : (2 : ℚ) ^ 55 ≤ toDouble (toDouble (toDouble size * 8) * toDouble alpha) := by
    apply two_pow_le_roundTo (by decide)
    calc (2 : ℚ) ^ 55 ≤ 2 ^ (Nat.log 2 size + 3 + Nat.log 2 alpha) :=
          pow_le_pow_right₀ (by norm_num) (by omega)
      _ = 2 ^ (Nat.log 2 size + 3) * 2 ^ Nat.log 2 alpha := pow_add _ _ _
      _ ≤ toDouble (toDouble size * 8) * toDouble alpha :=
          mul_le_mul bits_ge alpha_ge (by positivity) ((by positivity : (0 : ℚ) ≤ _).trans bits_ge)
  have divisor_pos : (0 : ℚ) < (8 * params.absorptionBytesize : ℕ) := by
    exact_mod_cast Nat.mul_pos (by decide) bounds.absorption_pos
  have divisor_le : ((8 * params.absorptionBytesize : ℕ) : ℚ) ≤ 2 ^ 23 := by
    exact_mod_cast (by omega : 8 * params.absorptionBytesize ≤ 2 ^ 23)
  have quotient_ge : (2 : ℚ) ^ 32 ≤ toDouble (toDouble (toDouble (toDouble size * 8) *
      toDouble alpha) / toDouble params.absorptionBitsize) := by
    apply two_pow_le_roundTo (by decide)
    rw [bounds.absorption_eq, toDouble_eight_mul (by omega), le_div_iff₀ divisor_pos]
    linarith
  exact_mod_cast quotient_ge.trans (Nat.le_ceil _)

theorem SizeBounds.first_eq {size alpha : ℕ} (small : size * alpha < 2 ^ 53)
    (alpha_pos : 0 < alpha) :
    ⌈toDouble (toDouble (toDouble (toDouble size * 8) * toDouble alpha) /
      toDouble params.absorptionBitsize)⌉₊ = params.plaintexts (size * alpha) 0 := by
  have absorption_lt := bounds.absorption_lt
  have size_lt : size < 2 ^ 53 := (Nat.le_mul_of_pos_right _ alpha_pos).trans_lt small
  have bits_eq : toDouble (toDouble size * 8) = (8 * size : ℕ) := by
    rw [toDouble_natCast size_lt, ← toDouble_eight_mul size_lt]
    push_cast
    rw [mul_comm]
  have product_eq : toDouble (toDouble (toDouble size * 8) * toDouble alpha) =
      toDouble (8 * (size * alpha) : ℕ) := by
    rw [bits_eq]
    rcases Nat.eq_zero_or_pos size with rfl | size_pos
    · simp
    · rw [toDouble_natCast ((Nat.le_mul_of_pos_left _ size_pos).trans_lt small), ← Nat.cast_mul,
        Nat.mul_assoc]
  rw [product_eq, bounds.absorption_eq,
    natCeil_toDouble_bits small (by omega) bounds.absorption_pos, plaintexts]

theorem SizeBounds.bytes_lt_of_range {bytes level : ℕ}
    (few : params.plaintexts bytes level < 2 ^ 32) : bytes < 2 ^ 52 := by
  have absorption_lt := bounds.absorption_lt
  have first_lt := (bounds.plaintexts_mono bytes (Nat.zero_le level)).trans_lt few
  have inside := (ceilDiv_le_iff_le_mul bounds.absorption_pos).mp
    (le_refl (params.plaintexts bytes 0))
  calc bytes ≤ params.absorptionBytesize * params.plaintexts bytes 0 := inside
    _ ≤ 2 ^ 20 * params.plaintexts bytes 0 := Nat.mul_le_mul_right _ absorption_lt.le
    _ < 2 ^ 20 * 2 ^ 32 := Nat.mul_lt_mul_of_pos_left first_lt (by decide)
    _ = 2 ^ 52 := by decide

theorem SizeBounds.next_eq {number : ℕ} (few : number < 2 ^ 32) :
    ⌈toDouble (toDouble (number * toDouble params.ciphertextBytesize) /
        toDouble params.absorptionBytesize)⌉₊ =
      number * params.ciphertextBytesize ⌈/⌉ params.absorptionBytesize := by
  have absorption_lt := bounds.absorption_lt
  have product_lt : number * params.ciphertextBytesize < 2 ^ 53 := by
    calc number * params.ciphertextBytesize ≤ number * 2 ^ 21 :=
          Nat.mul_le_mul_left _ bounds.ciphertext_le
      _ < 2 ^ 32 * 2 ^ 21 := Nat.mul_lt_mul_of_pos_right few (by decide)
      _ = 2 ^ 53 := by decide
  have ciphertext_le := bounds.ciphertext_le
  rw [toDouble_natCast (by omega : params.ciphertextBytesize < 2 ^ 53), ← Nat.cast_mul]
  exact natCeil_roundTo_quotient product_lt (by omega) bounds.absorption_pos

/-- The number of ciphertexts is exact, if it is an `unsigned int`. -/
theorem SizeBounds.computeReplySizeInChunks_eq_ite (maxFileBytesize : ℕ) :
    params.computeReplySizeInChunks pirParams maxFileBytesize =
      if params.plaintexts (maxFileBytesize * pirParams.alpha) (pirParams.d - 1) < 2 ^ 32 then
        some (params.plaintexts (maxFileBytesize * pirParams.alpha) (pirParams.d - 1))
      else none := by
  have absorption_lt := bounds.absorption_lt
  rw [computeReplySizeInChunks]
  generalize pirParams.d - 1 = levels
  induction levels with
  | zero =>
      change toUnsigned _ = _
      rcases Nat.lt_or_ge (maxFileBytesize * pirParams.alpha) (2 ^ 53) with small | large
      · rw [bounds.first_eq small pirParams.alpha_pos, toUnsigned]
      · have out_of_range := bounds.two_pow_le_first large
        have many : ¬params.plaintexts (maxFileBytesize * pirParams.alpha) 0 < 2 ^ 32 := by
          intro few
          have := bounds.bytes_lt_of_range few
          omega
        rw [toUnsigned, if_neg (not_lt.mpr out_of_range), if_neg many]
  | succ levels ih =>
      rw [levelLoop, forLoop_succ]
      rw [levelLoop] at ih
      rw [ih]
      split
      case isTrue few =>
        rw [Option.bind_some, bounds.next_eq few, toUnsigned]
        rfl
      case isFalse many =>
        have more := bounds.plaintexts_mono (maxFileBytesize * pirParams.alpha)
          (by omega : levels ≤ levels + 1)
        rw [Option.bind_none, if_neg (by omega)]

theorem SizeBounds.computeReplySizeInChunks_eq {maxFileBytesize : ℕ}
    (few : params.plaintexts (maxFileBytesize * pirParams.alpha) (pirParams.d - 1) < 2 ^ 32) :
    params.computeReplySizeInChunks pirParams maxFileBytesize =
      some (params.plaintexts (maxFileBytesize * pirParams.alpha) (pirParams.d - 1)) := by
  rw [bounds.computeReplySizeInChunks_eq_ite, if_pos few]

/-- The number of ciphertexts to download is exact in the same range. -/
theorem SizeBounds.paquetNbr_eq {maxFileBytesize : ℕ}
    (few : params.plaintexts (maxFileBytesize * pirParams.alpha) (pirParams.d - 1) < 2 ^ 32) :
    params.paquetNbr pirParams maxFileBytesize =
      params.plaintexts (maxFileBytesize * pirParams.alpha) (pirParams.d - 1) := by
  have bytes_lt := bounds.bytes_lt_of_range few
  have absorption_lt := bounds.absorption_lt
  apply forLoop_induction (pirParams.d - 1) _ _ (fun level number =>
    number = params.plaintexts (maxFileBytesize * pirParams.alpha) level)
  · rw [aggregatedFileSize, Nat.mod_eq_of_lt (by omega)]
    exact natCeil_roundTo_quotient (by omega) (by omega) bounds.absorption_pos
  · rintro level _ level_lt rfl
    exact bounds.next_eq ((bounds.plaintexts_mono _ level_lt.le).trans_lt few)

end Sizes

end PublicParameters

namespace LatticesBasedCryptosystem

open PublicParameters

variable {Poly Cipher : Type} {crypto : LatticesBasedCryptosystem Poly Cipher}
  {pirParams : PIRParameters} {params : PublicParameters}

/-- The intermediate replies are cut exactly as long as their bytes are integers of a `double`. -/
theorem levelPolys_eq_of_bytes (same : crypto.publicParams = params) (bounds : params.SizeBounds)
    {bytes level : ℕ}
    (bytes_lt : params.plaintexts bytes level * params.absorptionBytesize < 2 ^ 53) :
    crypto.levelPolys (params.plaintexts bytes 0) level = params.plaintexts bytes level := by
  induction level with
  | zero => rfl
  | succ level ih =>
      have absorption_lt := bounds.absorption_lt
      have before := (Nat.mul_le_mul_right params.absorptionBytesize
        (bounds.plaintexts_mono bytes (Nat.le_succ level))).trans_lt bytes_lt
      have product_lt : params.plaintexts bytes level * params.ciphertextBytesize < 2 ^ 53 := by
        apply lt_of_le_of_lt _ bytes_lt
        rw [Nat.mul_comm _ params.absorptionBytesize]
        exact (ceilDiv_le_iff_le_mul bounds.absorption_pos).mp le_rfl
      have bits_eq : params.plaintexts bytes level * crypto.ciphertextBitsize =
          8 * (params.plaintexts bytes level * params.ciphertextBytesize) := by
        have ciphertext_eq : crypto.ciphertextBitsize = 8 * params.ciphertextBytesize := by
          rw [← bounds.ciphertext_eq, ← same, publicParams]
        rw [ciphertext_eq]
        ring
      have absorption_eq : crypto.absorptionBitsize / 8 = params.absorptionBytesize := by
        rw [← same]
        rfl
      have whole : toDouble (toDouble (8 * (params.plaintexts bytes level *
          params.ciphertextBytesize) % 2 ^ 64 : ℕ) / 8) =
            toDouble (params.plaintexts bytes level * params.ciphertextBytesize : ℕ) := by
        rw [Nat.mod_eq_of_lt (by omega), toDouble_eight_mul product_lt, Nat.cast_mul 8,
          Nat.cast_ofNat, mul_div_cancel_left₀ _ (by norm_num)]
      rw [levelPolys, ih before, reimportNbPolys, bits_eq, whole, absorption_eq]
      exact natCeil_roundTo_quotient product_lt (by omega) bounds.absorption_pos

theorem levelPolys_eq_plaintexts (same : crypto.publicParams = params) (bounds : params.SizeBounds)
    {bytes level : ℕ} (few : params.plaintexts bytes level < 2 ^ 32) :
    crypto.levelPolys (params.plaintexts bytes 0) level = params.plaintexts bytes level := by
  apply levelPolys_eq_of_bytes same bounds
  calc params.plaintexts bytes level * params.absorptionBytesize
      ≤ 2 ^ 32 * params.absorptionBytesize := Nat.mul_le_mul_right _ few.le
    _ < 2 ^ 32 * 2 ^ 20 := Nat.mul_lt_mul_of_pos_left bounds.absorption_lt (by decide)
    _ < 2 ^ 53 := by decide

/-- The import makes as many polynomials as the bytes have plaintexts. -/
theorem importedPolys_eq_plaintexts (same : crypto.publicParams = params)
    (bounds : params.SizeBounds) {maxFileBytesize offset bytesPerFile : ℕ}
    (few : params.plaintexts (bytesPerFile * pirParams.alpha) 0 < 2 ^ 32) :
    crypto.publicParams.importedPolys pirParams maxFileBytesize offset bytesPerFile =
      params.plaintexts (fileByteSize maxFileBytesize offset bytesPerFile * pirParams.alpha) 0 := by
  have part_le : fileByteSize maxFileBytesize offset bytesPerFile * pirParams.alpha ≤
      bytesPerFile * pirParams.alpha := Nat.mul_le_mul_right _ (Nat.min_le_left _ _)
  have bytes_lt := bounds.bytes_lt_of_range few
  have absorption_lt := bounds.absorption_lt
  have bits_eq : toDouble (toDouble (8 * (fileByteSize maxFileBytesize offset bytesPerFile *
      pirParams.alpha) : ℕ) * toDouble (1 : ℕ)) =
        toDouble (8 * (fileByteSize maxFileBytesize offset bytesPerFile *
          pirParams.alpha) : ℕ) := by
    rw [toDouble_natCast (by decide : 1 < 2 ^ 53), Nat.cast_one, mul_one,
      toDouble_eight_mul (by omega), toDouble_eight_mul (by omega)]
  rw [same, importedPolys, deserializedPolys, Nat.mod_eq_of_lt (by omega), Nat.mul_comm _ 8,
    bits_eq, bounds.absorption_eq, natCeil_toDouble_bits (by omega) (by omega)
      bounds.absorption_pos, plaintexts]

/-- The server makes as many ciphertexts as the imported bytes have plaintexts. -/
theorem producedPolys_eq_plaintexts (same : crypto.publicParams = params)
    (bounds : params.SizeBounds) {maxFileBytesize offset bytesPerFile : ℕ}
    (few : params.plaintexts (bytesPerFile * pirParams.alpha) (pirParams.d - 1) < 2 ^ 32) :
    crypto.producedPolys pirParams maxFileBytesize offset bytesPerFile =
      params.plaintexts (fileByteSize maxFileBytesize offset bytesPerFile * pirParams.alpha)
        (pirParams.d - 1) := by
  have part_le : fileByteSize maxFileBytesize offset bytesPerFile * pirParams.alpha ≤
      bytesPerFile * pirParams.alpha := Nat.mul_le_mul_right _ (Nat.min_le_left _ _)
  have first_few := (bounds.plaintexts_mono _ (Nat.zero_le (pirParams.d - 1))).trans_lt few
  rw [producedPolys, importedPolys_eq_plaintexts same bounds first_few]
  exact levelPolys_eq_plaintexts same bounds
    ((bounds.plaintexts_le_plaintexts part_le _).trans_lt few)

/-- The import gives as many polynomials as the element has plaintexts if it reaches the last. -/
theorem producedPolys_iff (same : crypto.publicParams = params) (bounds : params.SizeBounds)
    {maxFileBytesize offset bytesPerFile : ℕ} (size_pos : 0 < bytesPerFile)
    (few : params.plaintexts (bytesPerFile * pirParams.alpha) (pirParams.d - 1) < 2 ^ 32) :
    crypto.producedPolys pirParams maxFileBytesize offset bytesPerFile =
        params.plaintexts (bytesPerFile * pirParams.alpha) (pirParams.d - 1) ↔
      (params.plaintexts (bytesPerFile * pirParams.alpha) 0 - 1) * params.absorptionBytesize <
        fileByteSize maxFileBytesize offset bytesPerFile * pirParams.alpha := by
  have part_le : fileByteSize maxFileBytesize offset bytesPerFile * pirParams.alpha ≤
      bytesPerFile * pirParams.alpha := Nat.mul_le_mul_right _ (Nat.min_le_left _ _)
  have first_le := bounds.plaintexts_le_plaintexts part_le 0
  have count_pos := bounds.plaintexts_pos (Nat.mul_pos size_pos pirParams.alpha_pos) 0
  rw [producedPolys_eq_plaintexts same bounds few, bounds.plaintexts_eq_iff,
    ← not_le (b := _ * _), Nat.mul_comm _ params.absorptionBytesize,
    ← ceilDiv_le_iff_le_mul bounds.absorption_pos, ← plaintexts_zero]
  omega

end LatticesBasedCryptosystem

end Xpir
