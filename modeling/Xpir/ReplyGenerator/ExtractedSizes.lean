import Xpir.ReplyGenerator.LargeReplies

/-!
# Sizes of the extraction

The extraction takes the number of bytes of an element as an `int` and computes the number of
ciphertexts of each level in `float`. This file says which numbers it computes: those that
the numbers of bytes, as they are rounded, stay within (`ciphertextNbr_iff`). With
this the parties are compared: the others compute without an error, so that they
agree if and only if the import reaches the last plaintext and the numbers of the extraction
end with the right one.

A wrong number at one level may be made up for by the rounding at the next, if that
has `2 ^ 23` plaintexts or more. Below, all numbers have to be right (`keepsChunks_iff_of_few`).
-/

namespace Xpir

namespace PublicParameters

section Floats

theorem toFloat_pos {x : ℚ} (pos : 0 < x) : 0 < toFloat x :=
  (zpow_pos (by norm_num) _).trans_le (zpow_log_le_roundTo (by decide) pos)

theorem toFloat_zero : toFloat 0 = 0 := by
  exact_mod_cast toFloat_natCast (show 0 < 2 ^ 24 by decide)

theorem signedToFloat_of_nonneg {x : ℚ} (nonneg : 0 ≤ x) : signedToFloat x = toFloat x := by
  rw [signedToFloat, if_neg (not_lt.mpr nonneg)]

theorem signedToFloat_neg {x : ℚ} (negative : x < 0) : signedToFloat x < 0 := by
  rw [signedToFloat, if_pos negative, neg_lt_zero]
  exact toFloat_pos (neg_pos.mpr negative)

theorem ceil_bounds {x : ℚ} {count : ℕ} (converts : toUnsignedLong ⌈x⌉ = some count) :
    (count : ℚ) - 1 < x ∧ x ≤ count := by
  rw [toUnsignedLong] at converts
  split at converts
  next inside =>
    have ceil_eq : ⌈x⌉ = (count : ℤ) := by
      rw [← Option.some.inj converts, Int.toNat_of_nonneg inside.1]
    have bounds := Int.ceil_eq_iff.mp ceil_eq
    rwa [Int.cast_natCast] at bounds
  next => exact absurd converts (by simp)

theorem toUnsignedLong_ceil_iff {x : ℚ} (pos : 0 < x) {count : ℕ} (count_pos : 0 < count)
    (count_lt : count < 2 ^ 64) :
    toUnsignedLong ⌈toFloat x⌉ = some count ↔
      ¬ RoundsDownTo 24 (count - 1) x ∧ RoundsDownTo 24 count x := by
  have ceil_eq : ⌈toFloat x⌉ = (⌈toFloat x⌉₊ : ℤ) :=
    (Int.natCast_ceil_eq_ceil (toFloat_pos pos).le).symm
  have number : toUnsignedLong ⌈toFloat x⌉ = some count ↔ ⌈toFloat x⌉₊ = count := by
    rw [toUnsignedLong, ceil_eq, Int.toNat_natCast]
    split
    next => exact Option.some_inj
    next outside =>
      constructor
      · intro absent
        exact absurd absent (by simp)
      · intro equal
        omega
  rw [number]
  exact natCeil_roundTo_eq_iff (by decide) count_pos pos

end Floats

section Quotients

variable {params : PublicParameters} {size : ℚ} {number count : ℕ}

theorem StaysWithin.count_pos (within : params.StaysWithin size count) : 0 < count := by
  by_contra zero
  rw [Nat.eq_zero_of_not_pos zero] at within
  exact within.1 within.2

variable (bounds : params.SizeBounds)

include bounds

theorem SizeBounds.divisor_pos : (0 : ℚ) < params.absorptionBytesize := by
  exact_mod_cast bounds.absorption_pos

theorem SizeBounds.toFloat_absorption :
    toFloat params.absorptionBytesize = params.absorptionBytesize :=
  toFloat_natCast (bounds.absorption_lt.trans (by decide))

theorem SizeBounds.toFloat_ciphertext :
    toFloat params.ciphertextBytesize = params.ciphertextBytesize :=
  toFloat_natCast (bounds.ciphertext_le.trans_lt (by decide))

/-- The ceiling of the rounded quotient is the number that the bytes stay within. -/
theorem SizeBounds.staysWithin_iff (pos : 0 < size) :
    params.StaysWithin size count ↔
      (count : ℚ) - 1 < toFloat (size / params.absorptionBytesize) ∧
        toFloat (size / params.absorptionBytesize) ≤ count := by
  have quotient_pos : 0 < size / params.absorptionBytesize := div_pos pos bounds.divisor_pos
  have rounded_pos := toFloat_pos quotient_pos
  rw [StaysWithin, ← roundTo_le_natCast_iff (by decide) quotient_pos,
    ← roundTo_le_natCast_iff (by decide) quotient_pos, not_le, ← toFloat]
  rcases Nat.eq_zero_or_pos count with rfl | count_pos
  · push_cast
    exact iff_of_false (fun both => absurd (both.1.trans_le both.2) (lt_irrefl _))
      (fun both => by linarith [both.2])
  · rw [Nat.cast_sub count_pos, Nat.cast_one]

/-- When the extraction computes a given number of plaintexts. -/
theorem SizeBounds.toFloat_div_iff (pos : 0 < size) (count_pos : 0 < count)
    (count_lt : count < 2 ^ 64) :
    toUnsignedLong ⌈toFloat (size / toFloat params.absorptionBytesize)⌉ = some count ↔
      params.StaysWithin size count := by
  rw [bounds.toFloat_absorption,
    toUnsignedLong_ceil_iff (div_pos pos bounds.divisor_pos) count_pos count_lt, StaysWithin]

theorem SizeBounds.roundedBytes_pos (number_pos : 0 < number) : 0 < params.roundedBytes number := by
  apply toFloat_pos
  apply mul_pos (toFloat_pos (by exact_mod_cast number_pos))
  exact_mod_cast bounds.absorption_pos.trans_le bounds.absorption_le

theorem SizeBounds.toFloat_next_iff (number_pos : 0 < number) (count_pos : 0 < count)
    (count_lt : count < 2 ^ 64) :
    toUnsignedLong ⌈toFloat (toFloat (toFloat number * toFloat params.ciphertextBytesize) /
        toFloat params.absorptionBytesize)⌉ = some count ↔
      params.StaysWithin (params.roundedBytes number) count := by
  rw [bounds.toFloat_ciphertext]
  exact bounds.toFloat_div_iff (bounds.roundedBytes_pos number_pos) count_pos count_lt

/-- What the three roundings of a level lose at most. -/
theorem SizeBounds.next_ge (number_pos : 0 < number)
    (within : params.StaysWithin (params.roundedBytes number) count) :
    (number * params.ciphertextBytesize : ℚ) * (2 ^ 20 - 1) ≤
      2 ^ 20 * (params.absorptionBytesize * count) := by
  have divisor_pos := bounds.divisor_pos
  have bytes_pos := bounds.roundedBytes_pos number_pos
  have number_nonneg : (0 : ℚ) ≤ number := Nat.cast_nonneg number
  have ciphertext_nonneg : (0 : ℚ) ≤ params.ciphertextBytesize := Nat.cast_nonneg _
  have upper := ((bounds.staysWithin_iff bytes_pos).mp within).2
  have first : (number : ℚ) * (2 ^ 24 - 1) ≤ toFloat number * 2 ^ 24 :=
    le_roundTo_mul_two_pow number_nonneg
  have second : toFloat number * params.ciphertextBytesize * (2 ^ 24 - 1) ≤
      params.roundedBytes number * 2 ^ 24 :=
    le_roundTo_mul_two_pow (mul_nonneg (roundTo_nonneg number_nonneg) ciphertext_nonneg)
  have third : params.roundedBytes number / params.absorptionBytesize * (2 ^ 24 - 1) ≤
      toFloat (params.roundedBytes number / params.absorptionBytesize) * 2 ^ 24 :=
    le_roundTo_mul_two_pow (div_nonneg bytes_pos.le divisor_pos.le)
  rw [div_mul_eq_mul_div, div_le_iff₀ divisor_pos] at third
  have first_scaled := mul_le_mul_of_nonneg_right first ciphertext_nonneg
  have upper_scaled := mul_le_mul_of_nonneg_right upper divisor_pos.le
  have exact_nonneg := mul_nonneg number_nonneg ciphertext_nonneg
  linarith

/-- The numbers at least double from level to level. -/
theorem SizeBounds.two_mul_le_next (number_pos : 0 < number)
    (within : params.StaysWithin (params.roundedBytes number) count) : 2 * number ≤ count := by
  have divisor_pos := bounds.divisor_pos
  have lost := bounds.next_ge number_pos within
  have expansion : (2048 : ℚ) * params.absorptionBytesize ≤ 1023 * params.ciphertextBytesize := by
    exact_mod_cast bounds.expansion
  have number_cast : (0 : ℚ) < number := by exact_mod_cast number_pos
  have scaled := mul_le_mul_of_nonneg_left expansion number_cast.le
  have product_pos := mul_pos number_cast divisor_pos
  have doubled : params.absorptionBytesize * (2 * number : ℚ) ≤ params.absorptionBytesize * count := by
    linarith
  exact_mod_cast le_of_mul_le_mul_left doubled divisor_pos

end Quotients

section Levels

variable {params : PublicParameters} {bytes levels : ℕ} {numbers : ℕ → ℕ}

theorem Extracts.number_pos (extracts : params.Extracts levels bytes numbers) {level : ℕ}
    (level_lt : level < levels) : 0 < numbers level := by
  cases level with
  | zero => exact extracts.first.count_pos
  | succ level => exact (extracts.next level level_lt).count_pos

theorem Extracts.lower {fewer : ℕ} (fewer_le : fewer ≤ levels)
    (extracts : params.Extracts levels bytes numbers) : params.Extracts fewer bytes numbers where
  isPositive := extracts.isPositive
  first := extracts.first
  next := fun level level_lt => extracts.next level (by omega)

theorem toInt_of_lt (bytes_lt : bytes < 2 ^ 31) : toInt bytes = bytes := by
  rw [toInt, Nat.mod_eq_of_lt (by omega), if_pos bytes_lt]

theorem Extracts.congr {others : ℕ → ℕ} (extracts : params.Extracts levels bytes numbers)
    (levels_pos : 0 < levels) (same : ∀ level < levels, numbers level = others level) :
    params.Extracts levels bytes others where
  isPositive := extracts.isPositive
  first := by
    rw [← same 0 levels_pos]
    exact extracts.first
  next := by
    intro level level_lt
    rw [← same level (by omega), ← same (level + 1) level_lt]
    exact extracts.next level level_lt

variable (bounds : params.SizeBounds)

include bounds

theorem SizeBounds.extracts_mono (extracts : params.Extracts levels bytes numbers) {level : ℕ}
    (level_lt : level < levels) : 2 ^ level ≤ numbers level ∧ numbers level ≤ numbers (levels - 1) := by
  constructor
  · induction level with
    | zero => exact extracts.number_pos level_lt
    | succ level ih =>
        have doubled := bounds.two_mul_le_next (extracts.number_pos (by omega))
          (extracts.next level level_lt)
        have before := ih (by omega)
        rw [pow_succ]
        omega
  · rcases Nat.exists_eq_add_of_lt level_lt with ⟨rest, levels_eq⟩
    have rises : ∀ more ≤ rest, numbers level ≤ numbers (level + more) := by
      intro more more_le
      induction more with
      | zero => exact le_rfl
      | succ more ih =>
          have doubled := bounds.two_mul_le_next (extracts.number_pos (by omega))
            (extracts.next (level + more) (by omega))
          have before := ih (by omega)
          change _ ≤ numbers (level + more + 1)
          omega
    have last := rises rest le_rfl
    rwa [show level + rest = levels - 1 by omega] at last

/-- When the extraction computes a given number of plaintexts at the first level. -/
theorem SizeBounds.toFloat_first_iff {count : ℕ} (count_pos : 0 < count) (count_lt : count < 2 ^ 64) :
    toUnsignedLong ⌈signedToFloat (signedToFloat (toInt bytes) /
        toFloat params.absorptionBytesize)⌉ = some count ↔
      0 < toInt bytes ∧ params.StaysWithin (toFloat (toInt bytes)) count := by
  have divisor_pos := bounds.divisor_pos
  rcases lt_or_ge 0 (toInt bytes) with positive | nonpositive
  · have size_pos : (0 : ℚ) < toInt bytes := by exact_mod_cast positive
    have rounded_pos := toFloat_pos size_pos
    rw [signedToFloat_of_nonneg size_pos.le, signedToFloat_of_nonneg, and_iff_right positive]
    · exact bounds.toFloat_div_iff rounded_pos count_pos count_lt
    · rw [bounds.toFloat_absorption]
      exact (div_pos rounded_pos divisor_pos).le
  · refine iff_of_false ?_ (fun both => absurd both.1 (not_lt.mpr nonpositive))
    intro first
    have above := (ceil_bounds first).1
    have count_cast : (1 : ℚ) ≤ count := by exact_mod_cast count_pos
    have size_nonpos : signedToFloat (toInt bytes) ≤ 0 := by
      rcases nonpositive.lt_or_eq with negative | zero
      · exact (signedToFloat_neg (by exact_mod_cast negative)).le
      · rw [zero, Int.cast_zero, signedToFloat_of_nonneg le_rfl, toFloat_zero]
    have quotient_nonpos : signedToFloat (signedToFloat (toInt bytes) /
        toFloat params.absorptionBytesize) ≤ 0 := by
      rw [bounds.toFloat_absorption]
      rcases (div_nonpos_of_nonpos_of_nonneg size_nonpos divisor_pos.le).lt_or_eq with
        negative | zero
      · exact (signedToFloat_neg negative).le
      · rw [zero, signedToFloat_of_nonneg le_rfl, toFloat_zero]
    linarith

/-- When the extraction computes a given number of plaintexts at a level. -/
theorem SizeBounds.ciphertextNbr_iff {recLvl count : ℕ} (recLvl_pos : 0 < recLvl)
    (count_pos : 0 < count) (count_lt : count < 2 ^ 64) :
    params.ciphertextNbr recLvl (toInt bytes) = some count ↔
      ∃ numbers, params.Extracts recLvl bytes numbers ∧ numbers (recLvl - 1) = count := by
  constructor
  · intro counts
    rcases exists_of_levelLoop counts with ⟨numbers, first_eq, next_eq, last_eq⟩
    have range : ∀ level ≤ recLvl - 1, numbers level < 2 ^ 64 := by
      intro level level_le
      have converts : ∃ value, toUnsignedLong value = some (numbers level) := by
        cases level with
        | zero => exact ⟨_, first_eq⟩
        | succ level => exact ⟨_, next_eq level (by omega)⟩
      rcases converts with ⟨value, value_eq⟩
      rw [toUnsignedLong] at value_eq
      split at value_eq
      next inside =>
        have := Option.some.inj value_eq
        omega
      next => exact absurd value_eq (by simp)
    have number_pos : ∀ rest ≤ recLvl - 1, 0 < numbers (recLvl - 1 - rest) := by
      intro rest rest_le
      induction rest with
      | zero =>
          change 0 < numbers (recLvl - 1)
          omega
      | succ rest ih =>
          have after := ih (by omega)
          by_contra zero
          have next := next_eq (recLvl - 1 - (rest + 1)) (by omega)
          rw [Nat.eq_zero_of_not_pos zero, Nat.cast_zero, toFloat_zero, zero_mul, toFloat_zero,
            zero_div, toFloat_zero, Int.ceil_zero,
            show recLvl - 1 - (rest + 1) + 1 = recLvl - 1 - rest by omega] at next
          rw [← Option.some.inj next] at after
          exact absurd after (by decide)
    have pos_at : ∀ level ≤ recLvl - 1, 0 < numbers level := by
      intro level level_le
      have positive := number_pos (recLvl - 1 - level) (Nat.sub_le _ _)
      rwa [Nat.sub_sub_self level_le] at positive
    rcases (bounds.toFloat_first_iff (pos_at 0 (Nat.zero_le _)) (range 0 (Nat.zero_le _))).mp
      first_eq with ⟨positive, first⟩
    refine ⟨numbers, ⟨positive, first, ?_⟩, last_eq⟩
    intro level level_lt
    exact (bounds.toFloat_next_iff (pos_at level (by omega)) (pos_at (level + 1) (by omega))
      (range (level + 1) (by omega))).mp (next_eq level (by omega))
  · rintro ⟨numbers, extracts, rfl⟩
    have range : ∀ level < recLvl, numbers level < 2 ^ 64 := fun level level_lt =>
      (bounds.extracts_mono extracts level_lt).2.trans_lt count_lt
    apply levelLoop_eq numbers
    · exact (bounds.toFloat_first_iff (extracts.number_pos recLvl_pos) (range 0 recLvl_pos)).mpr
        ⟨extracts.isPositive, extracts.first⟩
    · intro level level_lt
      exact (bounds.toFloat_next_iff (extracts.number_pos (by omega))
        (extracts.number_pos (show level + 1 < recLvl by omega)) (range (level + 1) (by omega))).mpr
          (extracts.next level (by omega))

end Levels

section Exact

variable {params : PublicParameters} (bounds : params.SizeBounds) {bytes levels : ℕ}

include bounds

/-- The bytes that an `int` loses are more than all rounding can make up for. -/
theorem SizeBounds.isInt_of_first (positive : 0 < toInt bytes)
    (first : params.StaysWithin (toFloat (toInt bytes)) (params.plaintexts bytes 0)) :
    bytes < 2 ^ 31 := by
  by_contra large
  have absorption_lt := bounds.absorption_lt
  have divisor_pos := bounds.divisor_pos
  have count_le : (bytes : ℚ) ≤ params.absorptionBytesize * (params.plaintexts bytes 0 : ℚ) := by
    exact_mod_cast (ceilDiv_le_iff_le_mul bounds.absorption_pos).mp
      (le_refl (params.plaintexts bytes 0))
  have size_pos : (0 : ℚ) < toInt bytes := by exact_mod_cast positive
  have above := ((bounds.staysWithin_iff (toFloat_pos size_pos)).mp first).1
  have rest_eq : toInt bytes = (bytes % 2 ^ 32 : ℕ) ∧ bytes % 2 ^ 32 < 2 ^ 31 := by
    rw [toInt] at positive ⊢
    split at positive
    next small => exact ⟨if_pos small, small⟩
    next => omega
  have lost : bytes % 2 ^ 32 + 2 ^ 32 ≤ bytes := by omega
  rw [rest_eq.1, Int.cast_natCast] at above
  generalize bytes % 2 ^ 32 = rest at *
  have rest_nonneg : (0 : ℚ) ≤ rest := Nat.cast_nonneg rest
  have first_le : toFloat rest * 2 ^ 24 ≤ rest * (2 ^ 24 + 1) := roundTo_mul_two_pow_le rest_nonneg
  have second_le : toFloat (toFloat rest / params.absorptionBytesize) * 2 ^ 24 ≤
      toFloat rest / params.absorptionBytesize * (2 ^ 24 + 1) :=
    roundTo_mul_two_pow_le (div_nonneg (roundTo_nonneg rest_nonneg) divisor_pos.le)
  rw [div_mul_eq_mul_div, le_div_iff₀ divisor_pos] at second_le
  have scaled := mul_lt_mul_of_pos_left above divisor_pos
  have lost_cast : (rest : ℚ) + 2 ^ 32 ≤ bytes := by exact_mod_cast lost
  have rest_lt : (rest : ℚ) < 2 ^ 31 := by exact_mod_cast rest_eq.2
  have divisor_lt : (params.absorptionBytesize : ℚ) < 2 ^ 20 := by exact_mod_cast absorption_lt
  linarith

/-- The extraction computes all numbers of plaintexts if no rounding takes it off one of them. -/
theorem SizeBounds.extracts_plaintexts_iff (bytes_pos : 0 < bytes) :
    params.Extracts levels bytes (params.plaintexts bytes) ↔ params.KeepsChunks levels bytes := by
  constructor
  · rintro ⟨positive, first, next⟩
    have bytes_lt := bounds.isInt_of_first positive first
    rw [toInt_of_lt bytes_lt] at first
    exact ⟨bytes_lt, by exact_mod_cast first, next⟩
  · rintro ⟨bytes_lt, first, next⟩
    have same := toInt_of_lt bytes_lt
    refine ⟨by omega, ?_, next⟩
    rw [same]
    exact_mod_cast first

theorem SizeBounds.ciphertextNbr_of_keepsChunks {recLvl : ℕ} (bytes_pos : 0 < bytes)
    (keeps : params.KeepsChunks levels bytes) (recLvl_pos : 0 < recLvl) (recLvl_le : recLvl ≤ levels)
    (few : params.plaintexts bytes (recLvl - 1) < 2 ^ 32) :
    params.ciphertextNbr recLvl (toInt bytes) = some (params.plaintexts bytes (recLvl - 1)) :=
  (bounds.ciphertextNbr_iff recLvl_pos (bounds.plaintexts_pos bytes_pos _)
    (few.trans (by decide))).mpr ⟨params.plaintexts bytes,
      ((bounds.extracts_plaintexts_iff bytes_pos).mpr keeps).lower recLvl_le, rfl⟩

/-- Below `2 ^ 23`, a wrong number of plaintexts at one level gives a wrong number at the next. -/
theorem SizeBounds.eq_of_next {number exact : ℕ} (number_pos : 0 < number)
    (few : exact * params.ciphertextBytesize ⌈/⌉ params.absorptionBytesize < 2 ^ 23)
    (within : params.StaysWithin (params.roundedBytes number)
      (exact * params.ciphertextBytesize ⌈/⌉ params.absorptionBytesize)) :
    number = exact := by
  have divisor_pos := bounds.divisor_pos
  have expansion : (2048 : ℚ) * params.absorptionBytesize ≤ 1023 * params.ciphertextBytesize := by
    exact_mod_cast bounds.expansion
  have ciphertext_nonneg : (0 : ℚ) ≤ params.ciphertextBytesize := Nat.cast_nonneg _
  have doubled := bounds.two_mul_le_next number_pos within
  have bytes_pos := bounds.roundedBytes_pos number_pos
  rcases (bounds.staysWithin_iff bytes_pos).mp within with ⟨above, below⟩
  -- All quantities are multiplied with the size of a plaintext.
  have count_ge : (exact * params.ciphertextBytesize : ℚ) ≤ params.absorptionBytesize *
      (exact * params.ciphertextBytesize ⌈/⌉ params.absorptionBytesize : ℕ) := by
    exact_mod_cast (ceilDiv_le_iff_le_mul bounds.absorption_pos).mp
      (le_refl (exact * params.ciphertextBytesize ⌈/⌉ params.absorptionBytesize))
  have count_lt := ceilDiv_mul_lt (exact * params.ciphertextBytesize) bounds.absorption_pos
  generalize exact * params.ciphertextBytesize ⌈/⌉ params.absorptionBytesize = count at *
  have few_cast : (count : ℚ) ≤ 2 ^ 23 - 1 := by
    have few_le_cast : (count : ℚ) + 1 ≤ 2 ^ 23 := by exact_mod_cast Nat.succ_le_of_lt few
    linarith
  have count_lt_cast : params.absorptionBytesize * (count : ℚ) <
      exact * params.ciphertextBytesize + params.absorptionBytesize := by exact_mod_cast count_lt
  rw [roundedBytes, toFloat_natCast (by omega : number < 2 ^ 24)] at above below bytes_pos
  have product_nonneg : (0 : ℚ) ≤ number * params.ciphertextBytesize := by positivity
  have product_le : toFloat (number * params.ciphertextBytesize) * 2 ^ 24 ≤
      number * params.ciphertextBytesize * (2 ^ 24 + 1) := roundTo_mul_two_pow_le product_nonneg
  have product_ge : (number * params.ciphertextBytesize : ℚ) * (2 ^ 24 - 1) ≤
      toFloat (number * params.ciphertextBytesize) * 2 ^ 24 := le_roundTo_mul_two_pow product_nonneg
  have quotient_le : toFloat (toFloat (number * params.ciphertextBytesize) /
      params.absorptionBytesize) * 2 ^ 24 ≤ _ * (2 ^ 24 + 1) :=
    roundTo_mul_two_pow_le (div_nonneg bytes_pos.le divisor_pos.le)
  have quotient_ge : _ * (2 ^ 24 - 1) ≤ toFloat (toFloat (number * params.ciphertextBytesize) /
      params.absorptionBytesize) * 2 ^ 24 :=
    le_roundTo_mul_two_pow (div_nonneg bytes_pos.le divisor_pos.le)
  rw [div_mul_eq_mul_div, le_div_iff₀ divisor_pos] at quotient_le
  rw [div_mul_eq_mul_div, div_le_iff₀ divisor_pos] at quotient_ge
  have above_scaled := mul_lt_mul_of_pos_left above divisor_pos
  have below_scaled := mul_le_mul_of_nonneg_left below divisor_pos.le
  have few_scaled := mul_le_mul_of_nonneg_left few_cast divisor_pos.le
  rcases lt_trichotomy number exact with fewer | equal | more
  · exfalso
    have fewer_cast : (number : ℚ) + 1 ≤ exact := by exact_mod_cast fewer
    have fewer_scaled := mul_le_mul_of_nonneg_right fewer_cast ciphertext_nonneg
    linarith
  · exact equal
  · exfalso
    have more_cast : (exact : ℚ) + 1 ≤ number := by exact_mod_cast more
    have more_scaled := mul_le_mul_of_nonneg_right more_cast ciphertext_nonneg
    linarith

/-- Below `2 ^ 23`, the numbers of the extraction end with the right one only if all are right. -/
theorem SizeBounds.keepsChunks_iff_of_few (bytes_pos : 0 < bytes) (levels_pos : 0 < levels)
    (few : params.plaintexts bytes (levels - 1) < 2 ^ 23) :
    (∃ numbers, params.Extracts levels bytes numbers ∧
        numbers (levels - 1) = params.plaintexts bytes (levels - 1)) ↔
      params.KeepsChunks levels bytes := by
  rw [← bounds.extracts_plaintexts_iff bytes_pos]
  constructor
  · rintro ⟨numbers, extracts, last_eq⟩
    have right : ∀ rest ≤ levels - 1,
        numbers (levels - 1 - rest) = params.plaintexts bytes (levels - 1 - rest) := by
      intro rest rest_le
      induction rest with
      | zero => exact last_eq
      | succ rest ih =>
          have after := ih (by omega)
          have level_eq : levels - 1 - rest = levels - 1 - (rest + 1) + 1 := by omega
          have next := extracts.next (levels - 1 - (rest + 1)) (by omega)
          rw [level_eq] at after
          rw [after] at next
          have level_few := (bounds.plaintexts_mono bytes
            (show levels - 1 - (rest + 1) + 1 ≤ levels - 1 by omega)).trans_lt few
          exact bounds.eq_of_next (extracts.number_pos (by omega)) level_few next
    have right_at : ∀ level < levels, numbers level = params.plaintexts bytes level := by
      intro level level_lt
      have same := right (levels - 1 - level) (Nat.sub_le _ _)
      rwa [Nat.sub_sub_self (by omega)] at same
    exact extracts.congr levels_pos right_at
  · intro extracts
    exact ⟨_, extracts, rfl⟩

theorem SizeBounds.getnbPlaintextReplies_iff {pirParams : PIRParameters} {maxFileBytesize : ℕ}
    (size_pos : 0 < maxFileBytesize)
    (few : params.plaintexts (maxFileBytesize * pirParams.alpha) 0 < 2 ^ 32) :
    params.getnbPlaintextReplies pirParams maxFileBytesize =
        some (params.plaintexts (maxFileBytesize * pirParams.alpha) 0) ↔
      params.StaysWithin (toFloat (toFloat maxFileBytesize * toFloat pirParams.alpha))
        (params.plaintexts (maxFileBytesize * pirParams.alpha) 0) := by
  have alpha_pos := pirParams.alpha_pos
  have factors_pos : 0 < toFloat maxFileBytesize * toFloat pirParams.alpha :=
    mul_pos (toFloat_pos (by exact_mod_cast size_pos)) (toFloat_pos (by exact_mod_cast alpha_pos))
  exact bounds.toFloat_div_iff (toFloat_pos factors_pos)
    (bounds.plaintexts_pos (Nat.mul_pos size_pos alpha_pos) 0) (few.trans (by decide))

/-- Sizes below `2 ^ 24` are not rounded at all. -/
theorem SizeBounds.staysWithin_of_lt {size : ℕ} (size_pos : 0 < size) (size_lt : size < 2 ^ 24) :
    params.StaysWithin (toFloat size) (size ⌈/⌉ params.absorptionBytesize) := by
  have size_cast : (0 : ℚ) < size := by exact_mod_cast size_pos
  have quotient := @natCeil_roundTo_div 24 _ _ size_lt bounds.absorption_pos
  rw [toFloat_natCast size_lt, StaysWithin]
  exact (natCeil_roundTo_eq_iff (by decide) (ceilDiv_pos bounds.absorption_pos size_pos)
    (div_pos size_cast bounds.divisor_pos)).mp quotient

/-- Neither are sizes of few enough bits, which here fill their plaintexts. -/
theorem SizeBounds.staysWithin_of_full {count : ℕ} (value exponent : ℕ) (value_lt : value < 2 ^ 24)
    (value_pos : 0 < value) (count_lt : count < 2 ^ 24)
    (full : value * 2 ^ exponent = params.absorptionBytesize * count) :
    params.StaysWithin (toFloat (value * 2 ^ exponent : ℕ)) count := by
  have value_cast : (0 : ℚ) < value := by exact_mod_cast value_pos
  have divisor_pos := bounds.divisor_pos
  have exact : toFloat (value * 2 ^ exponent : ℕ) = (value * 2 ^ exponent : ℕ) := by
    push_cast
    rw [toFloat, ← zpow_natCast, roundTo_mul_zpow value_cast, roundTo_natCast value_lt]
  have quotient : ((value * 2 ^ exponent : ℕ) : ℚ) / params.absorptionBytesize = count := by
    rw [full, Nat.cast_mul, mul_div_cancel_left₀ _ divisor_pos.ne']
  have size_pos : (0 : ℚ) < (value * 2 ^ exponent : ℕ) := by
    exact_mod_cast Nat.mul_pos value_pos (Nat.two_pow_pos _)
  rw [exact, bounds.staysWithin_iff size_pos, quotient, toFloat_natCast count_lt]
  exact ⟨sub_one_lt _, le_rfl⟩

omit bounds in
theorem roundedBytes_natCast {number : ℕ} (number_lt : number < 2 ^ 24) :
    params.roundedBytes number = toFloat (number * params.ciphertextBytesize : ℕ) := by
  rw [roundedBytes, toFloat_natCast number_lt, Nat.cast_mul]

end Exact

section Wraps

variable {params : PublicParameters} (bounds : params.SizeBounds) {number exact count : ℕ}
  {size : ℚ}

include bounds

/-- A number that is computed has few enough bits, so that it misses those after a power of two. -/
theorem SizeBounds.add_two_pow_le {exponent : ℕ} (pos : 0 < size)
    (within : params.StaysWithin size number) (more : 2 ^ (23 + exponent) < number) :
    (2 ^ 23 + 1) * 2 ^ exponent ≤ number := by
  have power_pos : (0 : ℚ) < 2 ^ (exponent : ℤ) := zpow_pos (by norm_num) _
  have quotient_pos : 0 < size / params.absorptionBytesize := div_pos pos bounds.divisor_pos
  rcases (bounds.staysWithin_iff pos).mp within with ⟨above, below⟩
  have more_cast : (2 : ℚ) ^ (23 + exponent) + 1 ≤ number := by exact_mod_cast more
  have scaled : toFloat (size / params.absorptionBytesize) =
      roundTo 24 (size / params.absorptionBytesize / 2 ^ (exponent : ℤ)) * 2 ^ (exponent : ℤ) := by
    rw [← roundTo_mul_zpow (div_pos quotient_pos power_pos), div_mul_cancel₀ _ power_pos.ne']
    rfl
  have beyond : ((2 ^ 23 : ℕ) : ℚ) <
      roundTo 24 (size / params.absorptionBytesize / 2 ^ (exponent : ℤ)) := by
    rw [scaled] at above
    rw [pow_add, ← zpow_natCast (2 : ℚ) exponent] at more_cast
    push_cast
    exact lt_of_mul_lt_mul_right (by linarith) power_pos.le
  have next := mul_le_mul_of_nonneg_right (succ_le_roundTo (by decide) (by decide) (by decide)
    (div_pos quotient_pos power_pos) beyond) power_pos.le
  rw [← scaled, zpow_natCast] at next
  have reached := next.trans below
  push_cast at reached
  exact_mod_cast reached

/-- The bytes of more ciphertexts than a number with few enough bits. -/
theorem SizeBounds.le_roundedBytes {value exponent : ℕ} (number_pos : 0 < number)
    (value_le : value ≤ 2 ^ 24)
    (le : (value * 2 ^ exponent : ℚ) ≤ toFloat number * params.ciphertextBytesize) :
    (value * 2 ^ exponent : ℚ) ≤ params.roundedBytes number := by
  have ciphertext_pos : (0 : ℚ) < params.ciphertextBytesize := by
    exact_mod_cast bounds.absorption_pos.trans_le bounds.absorption_le
  rw [← zpow_natCast] at le ⊢
  exact natCast_mul_zpow_le_roundTo (by decide) value_le
    (mul_pos (toFloat_pos (by exact_mod_cast number_pos)) ciphertext_pos) le

/-- The bytes that stay within their plaintexts exceed them by half a distance at most. -/
theorem SizeBounds.roundedBytes_le (stays : params.StaysWithin (params.roundedBytes number) count) :
    params.roundedBytes number ≤ params.absorptionBytesize * (count + ulp 24 count / 2) := by
  rw [← div_le_iff₀' bounds.divisor_pos]
  exact stays.2.le

/-- This is less than one byte in `2 ^ 24`. -/
theorem SizeBounds.mul_ulp_le (stays : params.StaysWithin size count) :
    (params.absorptionBytesize * (ulp 24 count * 2 ^ 24) : ℚ) ≤
      params.absorptionBytesize * (2 * count) := by
  have count_cast : (0 : ℚ) < count := by exact_mod_cast stays.count_pos
  exact mul_le_mul_of_nonneg_left (ulp_mul_two_pow_le count_cast) bounds.divisor_pos.le

/-- Few enough bits that the ciphertexts reach are not lost. -/
theorem SizeBounds.le_of_staysWithin {value exponent : ℕ} (number_pos : 0 < number)
    (stays : params.StaysWithin (params.roundedBytes number) count) (value_le : value ≤ 2 ^ 24)
    (le : (value * 2 ^ exponent : ℚ) ≤ toFloat number * params.ciphertextBytesize) :
    (value * 2 ^ exponent : ℚ) ≤ params.absorptionBytesize * (count + ulp 24 count / 2) :=
  (bounds.le_roundedBytes number_pos value_le le).trans (bounds.roundedBytes_le stays)

theorem SizeBounds.le_toFloat_of_two_pow_lt {exponent : ℕ} (pos : 0 < size)
    (within : params.StaysWithin size number) (more : 2 ^ (23 + exponent) < number) :
    ((2 ^ 23 + 1 : ℕ) * 2 ^ exponent : ℚ) ≤ toFloat number := by
  have number_pos : (0 : ℚ) < number := by exact_mod_cast Nat.zero_lt_of_lt more
  have reached : ((2 ^ 23 + 1 : ℕ) * 2 ^ (exponent : ℤ) : ℚ) ≤ number := by
    rw [zpow_natCast]
    exact_mod_cast bounds.add_two_pow_le pos within more
  have rounded := natCast_mul_zpow_le_roundTo (show 0 < 24 by decide) (by decide) number_pos reached
  rwa [zpow_natCast] at rounded

omit bounds in
theorem succ_le_toFloat (more : exact < number) (small : exact < 2 ^ 24) :
    (exact + 1 : ℚ) ≤ toFloat number := by
  have number_ge : ((exact + 1 : ℕ) : ℚ) ≤ number := by exact_mod_cast more
  have number_pos : (0 : ℚ) < number := by exact_mod_cast Nat.zero_lt_of_lt more
  have rounded := natCast_le_roundTo (show 0 < 24 by decide) small number_pos number_ge
  exact_mod_cast rounded

/-- A power of two of ciphertexts that fills `2 ^ 32` bytes: the next number is rounded up. -/
theorem SizeBounds.not_staysWithin_of_two_pow {exponent : ℕ} (pos : 0 < size)
    (within : params.StaysWithin size number)
    (ciphertext_eq : params.ciphertextBytesize * 2 ^ exponent = 2 ^ 9)
    (more : 2 ^ (23 + exponent) < number)
    (count_lt : params.absorptionBytesize * count < 2 ^ 32 + params.absorptionBytesize) :
    ¬ params.StaysWithin (params.roundedBytes number) count := by
  intro stays
  have ciphertext_cast : (params.ciphertextBytesize * 2 ^ exponent : ℚ) = 2 ^ 9 := by
    exact_mod_cast ciphertext_eq
  have reached := mul_le_mul_of_nonneg_right (bounds.le_toFloat_of_two_pow_lt pos within more)
    (Nat.cast_nonneg params.ciphertextBytesize)
  have bytes_le := bounds.le_of_staysWithin (Nat.zero_lt_of_lt more) stays
    (show 2 ^ 23 + 1 ≤ 2 ^ 24 by decide) (show ((2 ^ 23 + 1 : ℕ) * 2 ^ 9 : ℚ) ≤ _ by
      rwa [mul_assoc, mul_comm (2 ^ exponent : ℚ), ciphertext_cast] at reached)
  have ciphertext_le : params.ciphertextBytesize ≤ 2 ^ 9 :=
    ciphertext_eq ▸ Nat.le_mul_of_pos_right _ (Nat.two_pow_pos exponent)
  have expansion := bounds.expansion
  have absorption_le : (params.absorptionBytesize : ℚ) ≤ 255 := by exact_mod_cast (by omega)
  have count_lt_cast : (params.absorptionBytesize * count + 1 : ℚ) ≤
      2 ^ 32 + params.absorptionBytesize := by exact_mod_cast count_lt
  have distance := bounds.mul_ulp_le stays
  push_cast at bytes_le
  linarith

/-- No power of two: the plaintexts are fewer than `2 ^ 25`, which bounds the distance better. -/
theorem SizeBounds.not_staysWithin_of_three (ciphertext_eq : params.ciphertextBytesize = 3 * 128)
    (more : 11184811 < number) (absorption_ge : 129 ≤ params.absorptionBytesize)
    (count_lt : params.absorptionBytesize * count <
      11184811 * (3 * 128) + params.absorptionBytesize) :
    ¬ params.StaysWithin (params.roundedBytes number) count := by
  intro stays
  have count_cast : (0 : ℚ) < count := by exact_mod_cast stays.count_pos
  have reached := mul_le_mul_of_nonneg_right (succ_le_toFloat more (by decide))
    (Nat.cast_nonneg params.ciphertextBytesize)
  have expansion := bounds.expansion
  rw [ciphertext_eq] at reached
  push_cast at reached
  have bytes_le := bounds.le_of_staysWithin (Nat.zero_lt_of_lt more) stays
    (show 2 ^ 23 + 1 ≤ 2 ^ 24 by decide) (show ((2 ^ 23 + 1 : ℕ) * 2 ^ 9 : ℚ) ≤ _ by
      rw [ciphertext_eq]
      push_cast
      linarith)
  have absorption_le : (params.absorptionBytesize : ℚ) ≤ 191 := by exact_mod_cast (by omega)
  have few : count < 2 ^ (24 + 1) := by
    by_contra many
    have product_ge := Nat.mul_le_mul absorption_ge (not_lt.mp many)
    omega
  have count_lt_cast : (params.absorptionBytesize * count + 1 : ℚ) ≤
      11184811 * (3 * 128) + params.absorptionBytesize := by exact_mod_cast count_lt
  have scaled := mul_le_mul_of_nonneg_left
    (@ulp_le_two_pow 24 _ 1 count_cast (by exact_mod_cast few)) bounds.divisor_pos.le
  push_cast at bytes_le
  linarith

theorem SizeBounds.not_staysWithin_of_eight (ciphertext_eq : params.ciphertextBytesize = 8 * 128)
    (more : 2 ^ 22 < number)
    (count_lt : params.absorptionBytesize * count < 2 ^ 32 + params.absorptionBytesize) :
    ¬ params.StaysWithin (params.roundedBytes number) count := by
  intro stays
  have reached := mul_le_mul_of_nonneg_right (succ_le_toFloat more (by decide))
    (Nat.cast_nonneg params.ciphertextBytesize)
  have expansion := bounds.expansion
  rw [ciphertext_eq] at reached
  push_cast at reached
  have bytes_le := bounds.le_of_staysWithin (Nat.zero_lt_of_lt more) stays
    (show 2 ^ 22 + 1 ≤ 2 ^ 24 by decide) (show ((2 ^ 22 + 1 : ℕ) * 2 ^ 10 : ℚ) ≤ _ by
      rw [ciphertext_eq]
      push_cast
      linarith)
  have absorption_le : (params.absorptionBytesize : ℚ) ≤ 511 := by exact_mod_cast (by omega)
  have count_lt_cast : (params.absorptionBytesize * count + 1 : ℚ) ≤
      2 ^ 32 + params.absorptionBytesize := by exact_mod_cast count_lt
  have distance := bounds.mul_ulp_le stays
  push_cast at bytes_le
  linarith

/-- Ciphertexts of few bytes, all of which have `128` bytes times one of a few factors. -/
theorem SizeBounds.not_staysWithin_of_narrow (pos : 0 < size)
    (within : params.StaysWithin size number) (more : exact < number)
    (wraps : 2 ^ 32 ≤ exact * params.ciphertextBytesize)
    (last : exact * params.ciphertextBytesize < 2 ^ 32 + params.absorptionBytesize)
    (count_lt : params.absorptionBytesize * count <
      exact * params.ciphertextBytesize + params.absorptionBytesize)
    (narrow : params.ciphertextBytesize < 9 * 128) :
    ¬ params.StaysWithin (params.roundedBytes number) count := by
  have absorption_bound := bounds.absorption_bound
  have expansion := bounds.expansion
  rcases bounds.aligned with ⟨factor, ciphertext_eq⟩
  have factor_lt : factor < 9 := by omega
  rw [ciphertext_eq] at wraps last expansion count_lt
  interval_cases factor
  · omega
  · have exact_eq : exact = 2 ^ (23 + 2) := by omega
    exact bounds.not_staysWithin_of_two_pow pos within (by omega) (exact_eq ▸ more) (by omega)
  · have exact_eq : exact = 2 ^ (23 + 1) := by omega
    exact bounds.not_staysWithin_of_two_pow pos within (by omega) (exact_eq ▸ more) (by omega)
  · have exact_eq : exact = 11184811 := by omega
    rw [exact_eq] at last more count_lt
    exact bounds.not_staysWithin_of_three (by omega) more (by omega) count_lt
  · have exact_eq : exact = 2 ^ (23 + 0) := by omega
    exact bounds.not_staysWithin_of_two_pow pos within (by omega) (exact_eq ▸ more) (by omega)
  · omega
  · omega
  · omega
  · have exact_eq : exact = 2 ^ 22 := by omega
    exact bounds.not_staysWithin_of_eight (by omega) (exact_eq ▸ more) (by omega)

/-- Ciphertexts of more bytes: another one has more of them than the rounding loses. -/
theorem SizeBounds.not_staysWithin_of_wide (more : exact < number)
    (last : exact * params.ciphertextBytesize < 2 ^ 32 + params.absorptionBytesize)
    (count_lt : params.absorptionBytesize * count <
      exact * params.ciphertextBytesize + params.absorptionBytesize)
    (wide : 9 * 128 ≤ params.ciphertextBytesize) :
    ¬ params.StaysWithin (params.roundedBytes number) count := by
  intro stays
  have upper := bounds.roundedBytes_le stays
  have distance := bounds.mul_ulp_le stays
  have absorption_bound := bounds.absorption_bound
  have larger := bounds.ciphertext_le
  have small : exact < 2 ^ 24 := by
    by_contra many
    have product_ge := Nat.mul_le_mul (not_lt.mp many) wide
    omega
  have ciphertext_nonneg : (0 : ℚ) ≤ params.ciphertextBytesize := Nat.cast_nonneg _
  have product_ge : (toFloat number * params.ciphertextBytesize : ℚ) * (2 ^ 24 - 1) ≤
      params.roundedBytes number * 2 ^ 24 := le_roundTo_mul_two_pow
    (mul_nonneg (roundTo_nonneg (Nat.cast_nonneg number)) ciphertext_nonneg)
  have number_scaled := mul_le_mul_of_nonneg_right (succ_le_toFloat more small) ciphertext_nonneg
  have last_cast : (exact * params.ciphertextBytesize : ℚ) + 1 ≤
      2 ^ 32 + params.absorptionBytesize := by exact_mod_cast last
  have count_lt_cast : (params.absorptionBytesize * count + 1 : ℚ) ≤
      exact * params.ciphertextBytesize + params.absorptionBytesize := by exact_mod_cast count_lt
  have expansion_cast : (2048 : ℚ) * params.absorptionBytesize ≤
      1023 * params.ciphertextBytesize := by exact_mod_cast bounds.expansion
  have wide_cast : (9 * 128 : ℚ) ≤ params.ciphertextBytesize := by exact_mod_cast wide
  have larger_cast : (params.ciphertextBytesize : ℚ) ≤ 2 ^ 21 := by exact_mod_cast larger
  linarith

/--
If the offsets of the ciphertexts wrap around at the last of them, then a larger number of
ciphertexts gives a larger number of plaintexts in `float`, too.
-/
theorem SizeBounds.not_staysWithin_of_wraps (pos : 0 < size)
    (within : params.StaysWithin size number) (more : exact < number)
    (wraps : 2 ^ 32 ≤ exact * params.ciphertextBytesize)
    (last : exact * params.ciphertextBytesize < 2 ^ 32 + params.absorptionBytesize) :
    ¬ params.StaysWithin (params.roundedBytes number)
      (exact * params.ciphertextBytesize ⌈/⌉ params.absorptionBytesize) := by
  have count_lt := ceilDiv_mul_lt (exact * params.ciphertextBytesize) bounds.absorption_pos
  rcases Nat.lt_or_ge params.ciphertextBytesize (9 * 128) with narrow | wide
  · exact bounds.not_staysWithin_of_narrow pos within more wraps last count_lt narrow
  · exact bounds.not_staysWithin_of_wide more last count_lt wide

end Wraps

end PublicParameters

namespace LatticesBasedCryptosystem

open PublicParameters

variable {Poly Cipher : Type} {crypto : LatticesBasedCryptosystem Poly Cipher}

section Agreement

/--
All parties work with the same number of chunks exactly if this number is an `unsigned int`,
the import reaches the last plaintext of the element, and the numbers of bytes stay, as the
extraction rounds them, within numbers of plaintexts that end with the right one. With
fewer than `2 ^ 23` chunks, the latter are the right ones at all levels.
-/
theorem agreeOnChunks_iff {params : PublicParameters} (same : crypto.publicParams = params)
    {poly : PolyShape} {absPerCoordinateBitsize : ℕ}
    (sizes : params.HasSizes poly absPerCoordinateBitsize) (pirParams : PIRParameters)
    (maxFileBytesize offset : ℕ) {bytesPerFile : ℕ} (size_pos : 0 < bytesPerFile) :
    let bytes := bytesPerFile * pirParams.alpha
    let count := params.plaintexts bytes (pirParams.d - 1)
    (crypto.AgreeOnChunks pirParams maxFileBytesize offset bytesPerFile ↔
      count < 2 ^ 32 ∧
        (params.plaintexts bytes 0 - 1) * params.absorptionBytesize <
          fileByteSize maxFileBytesize offset bytesPerFile * pirParams.alpha ∧
        (∃ numbers, params.Extracts pirParams.d bytes numbers ∧ numbers (pirParams.d - 1) = count) ∧
        (pirParams.d = 1 →
          params.StaysWithin (toFloat (toFloat bytesPerFile * toFloat pirParams.alpha)) count)) ∧
    (count < 2 ^ 23 →
      ((∃ numbers, params.Extracts pirParams.d bytes numbers ∧ numbers (pirParams.d - 1) = count) ↔
        params.KeepsChunks pirParams.d bytes)) := by
  intro bytes count
  have bounds := sizes.bounds
  have bytes_pos : 0 < bytes := Nat.mul_pos size_pos pirParams.alpha_pos
  have count_pos : 0 < count := bounds.plaintexts_pos bytes_pos _
  refine ⟨?_, fun few => bounds.keepsChunks_iff_of_few bytes_pos pirParams.d_pos few⟩
  have announced := @SizeBounds.computeReplySizeInChunks_eq_ite _ pirParams bounds bytesPerFile
  rw [AgreeOnChunks, same]
  constructor
  · rintro ⟨fuel, reached, announces, produces, pops, _, replies⟩
    rw [announced] at announces
    split at announces
    next few =>
      obtain rfl := Option.some.inj announces
      have bytes_lt := bounds.bytes_lt_of_range few
      have aggregated : aggregatedFileSize pirParams bytesPerFile = bytes :=
        Nat.mod_eq_of_lt (by omega)
      refine ⟨few, (producedPolys_iff same bounds size_pos few).mp produces, ?_, ?_⟩
      · rcases Option.bind_eq_some_iff.mp pops with ⟨number, number_eq, runs⟩
        rw [aggregated, ← eq_of_counterLoop_count (by decide) runs,
          bounds.ciphertextNbr_iff pirParams.d_pos count_pos (few.trans (by decide))] at number_eq
        exact number_eq
      · intro single
        have counted := replies single
        have first_eq : count = params.plaintexts bytes 0 := by
          change params.plaintexts bytes (pirParams.d - 1) = _
          rw [single]
        have first_few : params.plaintexts bytes 0 < 2 ^ 32 := first_eq ▸ few
        rw [first_eq]
        exact (bounds.getnbPlaintextReplies_iff size_pos first_few).mp (first_eq ▸ counted)
    next => exact absurd announces (by simp)
  · rintro ⟨few, reaches, extracts, replies⟩
    have bytes_lt := bounds.bytes_lt_of_range few
    have aggregated : aggregatedFileSize pirParams bytesPerFile = bytes :=
      Nat.mod_eq_of_lt (by omega)
    have counts := @counterLoop_count (2 ^ 32) (count + 1) _ few (Nat.lt_succ_self _)
    refine ⟨count + 1, count, by rw [announced, if_pos few],
      (producedPolys_iff same bounds size_pos few).mpr reaches, ?_, ?_, ?_⟩
    · have number := (bounds.ciphertextNbr_iff pirParams.d_pos count_pos
        (few.trans (by decide))).mpr extracts
      rw [poppedReplies, aggregated, number, Option.bind_some, counts]
    · rw [downloadedReplies, bounds.paquetNbr_eq few]
      exact counts
    · intro single
      have first_eq : count = params.plaintexts bytes 0 := by
        change params.plaintexts bytes (pirParams.d - 1) = _
        rw [single]
      have first_few : params.plaintexts bytes 0 < 2 ^ 32 := first_eq ▸ few
      have within := replies single
      rw [first_eq] at within ⊢
      exact (bounds.getnbPlaintextReplies_iff size_pos first_few).mpr within

/-- Sizes of a plaintext of 2560 bytes and a ciphertext of 16384 bytes. -/
def sized : LatticesBasedCryptosystem Unit Unit where
  zero := ()
  mulandadd := fun _ _ _ => ()
  sub := fun _ _ => ()
  deserializeDataNFL := fun _ _ _ => ()
  absorptionBitsize := 20480
  ciphertextBitsize := 131072

def degree1024 : PolyShape :=
  ⟨1024, 1, NFLlib.degree1024_pos, NFLlib.degree1024_le, Nat.one_pos, NFLlib.one_le_kMaxNbModuli⟩

theorem sized_hasSizes : sized.publicParams.HasSizes degree1024 20 :=
  ⟨by decide, by decide, by decide, rfl, by decide⟩

/-- An element of 524288000 bytes has 204800 plaintexts, then 1310720, and `2 ^ 23` at last. -/
theorem sized_keepsChunks : sized.publicParams.KeepsChunks 3 524288000 := by
  have bounds := sized_hasSizes.bounds
  refine ⟨by decide, ?_, ?_⟩
  · exact bounds.staysWithin_of_full 125 22 (by decide) (by decide)
      (by decide) (by decide)
  · intro level level_lt
    have levels : level = 0 ∨ level = 1 := by omega
    rcases levels with rfl | rfl
    · rw [roundedBytes_natCast (by decide)]
      exact bounds.staysWithin_of_full 100 25 (by decide) (by decide)
        (by decide) (by decide)
    · rw [roundedBytes_natCast (by decide)]
      exact bounds.staysWithin_of_full 5 32 (by decide) (by decide)
        (by decide) (by decide)

theorem agreeOnChunks_iff_large :
    sized.AgreeOnChunks ⟨1, 3, fun _ => 2, by decide, by decide, by decide, by decide⟩ 524288000 0
      524288000 := by
  have extracts := (sized_hasSizes.bounds.extracts_plaintexts_iff (by decide)).mpr sized_keepsChunks
  exact (agreeOnChunks_iff rfl sized_hasSizes _ 524288000 0 (by decide)).1.mpr
    ⟨by decide, by decide, ⟨_, extracts, rfl⟩, fun single => absurd single (by decide)⟩

/-- Of 16778241 bytes, the extraction loses one, and with it the last of 6555 plaintexts. -/
theorem sized_ciphertextNbr_ne :
    sized.publicParams.ciphertextNbr 1 (toInt 16778241) ≠ some 6555 := by
  have bounds := sized_hasSizes.bounds
  have rounded : toFloat (16778241 : ℕ) = (16778240 : ℕ) := by
    have half : ((16778241 : ℕ) : ℚ) = 16778241 / 2 * 2 ^ (1 : ℤ) := by norm_num
    have below : roundTo 24 (16778241 / 2) ≤ (8389120 : ℕ) := by
      rw [roundTo_le_iff_of_floor (by decide) (by decide) (by decide) le_rfl (lt_add_one _)
        (by norm_num), if_pos (by decide)]
      norm_num
    have above : ((8389120 : ℕ) : ℚ) ≤ roundTo 24 (16778241 / 2) :=
      natCast_le_roundTo (by decide) (by decide) (by norm_num) (by norm_num)
    rw [toFloat, half, roundTo_mul_zpow (by norm_num), le_antisymm below above]
    norm_num
  have quotient : ((16778240 : ℕ) : ℚ) / sized.publicParams.absorptionBytesize = (6554 : ℕ) := by
    rw [show sized.publicParams.absorptionBytesize = 2560 from rfl]
    norm_num
  intro number
  rcases (bounds.ciphertextNbr_iff Nat.one_pos (by decide) (by decide)).mp number with
    ⟨numbers, extracts, last_eq⟩
  have first := extracts.first
  rw [show numbers 0 = 6555 from last_eq, toInt_of_lt (by decide), Int.cast_natCast, rounded,
    bounds.staysWithin_iff (by norm_num), quotient, toFloat_natCast (by decide)] at first
  norm_num at first

theorem not_agreeOnChunks_large :
    ¬ sized.AgreeOnChunks ⟨1, 1, fun _ => 2, by decide, by decide, by decide, by decide⟩ 16778241 0
      16778241 := by
  rintro ⟨fuel, count, announces, _, pops, _⟩
  rw [sized_hasSizes.bounds.computeReplySizeInChunks_eq (by decide)] at announces
  have count_eq : 6555 = count := Option.some.inj announces
  rcases Option.bind_eq_some_iff.mp pops with ⟨number, number_eq, runs⟩
  have number_is : number = 6555 := by rw [← eq_of_counterLoop_count (by decide) runs, count_eq]
  rw [number_is] at number_eq
  exact sized_ciphertextNbr_ne number_eq

end Agreement

end LatticesBasedCryptosystem

end Xpir
