import Xpir.ReplyExtraction.PlainScheme

/-!
# Limits of the retrieval

The chosen element is retrieved with every ideal scheme exactly if the offsets of the
server's rounds, the client's numbers of ciphertexts and the offsets into its buffers are
right. For the converse, the client is given an element with a single byte: in the last
reply, which it does not take if it expects too few, or in the first one, which is
overwritten if the offsets wrap around.
-/

namespace Xpir

namespace PIRReplyExtraction

open PlainScheme

section Numbers

open PublicParameters

variable {params : PublicParameters} (bounds : params.SizeBounds) {bytes levels : ℕ}
  {numbers : ℕ → ℕ}

include bounds

/-- The number of ciphertexts is not much more than twice the number of the extraction. -/
theorem plaintexts_le_of_extracts (extracts : params.Extracts levels bytes numbers)
    (first : numbers 0 = params.plaintexts bytes 0) {level : ℕ} (level_lt : level < levels)
    (level_le : level ≤ 2 ^ 20) :
    (params.plaintexts bytes level : ℚ) * (2 ^ 20 - level) ≤ 2 ^ 20 * (2 * numbers level - 1) := by
  have divisor_pos := bounds.divisor_pos
  induction level with
  | zero =>
      have number_ge : (1 : ℚ) ≤ numbers 0 := by exact_mod_cast extracts.number_pos level_lt
      rw [← first, Nat.cast_zero, sub_zero]
      linarith
  | succ level ih =>
      have before := ih (by omega) (by omega)
      have next := bounds.next_ge (extracts.number_pos (by omega)) (extracts.next level level_lt)
      have expansion : (2048 : ℚ) * params.absorptionBytesize ≤
          1023 * params.ciphertextBytesize := by exact_mod_cast bounds.expansion
      have level_cast : (level : ℚ) + 1 ≤ 2 ^ 20 := by exact_mod_cast level_le
      have count_le : (params.absorptionBytesize : ℚ) * params.plaintexts bytes (level + 1) ≤
          params.plaintexts bytes level * params.ciphertextBytesize + params.absorptionBytesize := by
        exact_mod_cast (ceilDiv_mul_lt (params.plaintexts bytes level * params.ciphertextBytesize)
          bounds.absorption_pos).le
      have ciphertext_nonneg : (0 : ℚ) ≤ params.ciphertextBytesize := Nat.cast_nonneg _
      have rest_nonneg : (0 : ℚ) ≤ 2 ^ 20 - (level + 1) := by linarith
      have count_scaled := mul_le_mul_of_nonneg_right count_le rest_nonneg
      have before_scaled := mul_le_mul_of_nonneg_right before ciphertext_nonneg
      have lost_nonneg : (0 : ℚ) ≤ params.plaintexts bytes level * params.ciphertextBytesize *
          level := by positivity
      have bytes_nonneg : (0 : ℚ) ≤ params.absorptionBytesize * level := by positivity
      have scaled : params.absorptionBytesize *
          ((params.plaintexts bytes (level + 1) : ℚ) * (2 ^ 20 - (level + 1))) ≤
            params.absorptionBytesize * (2 ^ 20 * (2 * numbers (level + 1) - 1)) := by
        linarith
      push_cast
      exact le_of_mul_le_mul_left scaled divisor_pos

/-- So the bytes of all ciphertexts are integers of a `double`. -/
theorem plaintexts_mul_lt_of_extracts (extracts : params.Extracts levels bytes numbers)
    (first : numbers 0 = params.plaintexts bytes 0) {level : ℕ} (level_lt : level < levels)
    (number_lt : numbers level < 2 ^ 32) :
    params.plaintexts bytes level * params.absorptionBytesize < 2 ^ 53 := by
  have absorption_bound := bounds.absorption_bound
  have level_le : level < 32 := by
    apply (Nat.pow_lt_pow_iff_right (by decide : 1 < 2)).mp
    exact (bounds.extracts_mono extracts level_lt).1.trans_lt number_lt
  have estimate := plaintexts_le_of_extracts bounds extracts first level_lt (by omega)
  have plaintexts_nonneg : (0 : ℚ) ≤ params.plaintexts bytes level := Nat.cast_nonneg _
  have number_cast : (numbers level : ℚ) + 1 ≤ 2 ^ 32 := by exact_mod_cast number_lt
  have level_cast : (level : ℚ) + 1 ≤ 32 := by exact_mod_cast level_le
  have level_scaled := mul_le_mul_of_nonneg_left level_cast plaintexts_nonneg
  have plaintexts_lt : (params.plaintexts bytes level : ℚ) < 2 ^ 33 + 2 ^ 20 := by linarith
  have plaintexts_le : params.plaintexts bytes level < 2 ^ 33 + 2 ^ 20 := by
    exact_mod_cast plaintexts_lt
  calc params.plaintexts bytes level * params.absorptionBytesize
      ≤ (2 ^ 33 + 2 ^ 20) * (1024 * 1019) := Nat.mul_le_mul plaintexts_le.le absorption_bound
    _ < 2 ^ 53 := by decide

omit bounds in
/-- What lies before the last plaintext lies within `2 ^ 32` bytes. -/
theorem OffsetsFit.mul_lt {level : ℕ} (offsets : OffsetsFit params levels bytes)
    (level_lt : level < levels) (level_pos : 0 < level) :
    params.absorptionBytesize * params.plaintexts bytes level <
      2 ^ 32 + params.absorptionBytesize := by
  have last_lt := offsets level level_lt level_pos
  rw [Nat.sub_one_mul, Nat.mul_comm] at last_lt
  omega

omit bounds in
/-- The ciphertexts of a level fill the plaintexts of the next one. -/
theorem mul_le_mul_plaintexts_succ (absorption_pos : 0 < params.absorptionBytesize) (level : ℕ) :
    params.plaintexts bytes level * params.ciphertextBytesize ≤
      params.absorptionBytesize * params.plaintexts bytes (level + 1) :=
  (ceilDiv_le_iff_le_mul absorption_pos).mp le_rfl

section Reads

variable (bytes_pos : 0 < bytes) (extracts : params.Extracts levels bytes numbers)
  (first : numbers 0 = params.plaintexts bytes 0) (offsets : OffsetsFit params levels bytes)
  (reads : ∀ level, level + 1 < levels → ∀ j < numbers level,
    j * params.ciphertextBytesize % 2 ^ 32 + params.ciphertextBytesize ≤
      params.absorptionBytesize * numbers (level + 1)) {level : ℕ}

include bytes_pos first offsets reads

/-- The extraction reads all ciphertexts of a level, so that its numbers are large enough. -/
theorem plaintexts_le_of_reads (level_lt : level < levels) :
    params.plaintexts bytes level ≤ numbers level := by
  have absorption_pos := bounds.absorption_pos
  have larger := bounds.absorption_le
  induction level with
  | zero => exact first.ge
  | succ level ih =>
      have before := ih (by omega)
      have inside := offsets.mul_lt level_lt (Nat.succ_pos level)
      have positive := bounds.plaintexts_pos bytes_pos level
      have read := reads level level_lt (params.plaintexts bytes level - 1) (by omega)
      have whole := Nat.le_mul_of_pos_left params.ciphertextBytesize positive
      have reached := @mul_le_mul_plaintexts_succ _ bytes absorption_pos level
      rw [Nat.sub_one_mul, Nat.mod_eq_of_lt (by omega), Nat.sub_add_cancel whole] at read
      exact (ceilDiv_le_iff_le_mul absorption_pos).mpr read

include extracts

/-- A number that is too large stays so. -/
theorem plaintexts_lt_of_reads (next_lt : level + 1 < levels)
    (more : params.plaintexts bytes level < numbers level) :
    params.plaintexts bytes (level + 1) < numbers (level + 1) := by
  have absorption_pos := bounds.absorption_pos
  have larger := bounds.absorption_le
  have inside := offsets.mul_lt next_lt (Nat.succ_pos level)
  have reached := @mul_le_mul_plaintexts_succ _ bytes absorption_pos level
  rcases Nat.lt_or_ge (params.plaintexts bytes level * params.ciphertextBytesize) (2 ^ 32) with
    below | wraps
  · have read := reads level next_lt _ more
    rw [Nat.mod_eq_of_lt below] at read
    have count_lt : params.absorptionBytesize * params.plaintexts bytes (level + 1) <
        params.plaintexts bytes level * params.ciphertextBytesize + params.absorptionBytesize :=
      ceilDiv_mul_lt _ absorption_pos
    apply Nat.lt_of_mul_lt_mul_left (a := params.absorptionBytesize)
    exact count_lt.trans_le (by omega)
  · apply lt_of_le_of_ne (plaintexts_le_of_reads bounds bytes_pos first offsets reads next_lt)
    intro same
    have next := extracts.next level next_lt
    rw [← same] at next
    cases level with
    | zero => exact absurd first more.ne'
    | succ level =>
        exact bounds.not_staysWithin_of_wraps
          (bounds.roundedBytes_pos (extracts.number_pos (by omega)))
          (extracts.next level (by omega)) more wraps (by omega) next

/-- So all numbers of the extraction are right if the last one is. -/
theorem eq_plaintexts_of_reads
    (last : numbers (levels - 1) = params.plaintexts bytes (levels - 1))
    (level_lt : level < levels) : numbers level = params.plaintexts bytes level := by
  by_contra different
  have more := lt_of_le_of_ne
    (plaintexts_le_of_reads bounds bytes_pos first offsets reads level_lt) (Ne.symm different)
  rcases Nat.exists_eq_add_of_lt level_lt with ⟨rest, levels_eq⟩
  have above : ∀ further ≤ rest,
      params.plaintexts bytes (level + further) < numbers (level + further) := by
    intro further further_le
    induction further with
    | zero => exact more
    | succ further ih =>
        have next_lt : level + further + 1 < levels := by omega
        exact plaintexts_lt_of_reads bounds bytes_pos extracts first offsets reads next_lt
          (ih (by omega))
  have reached := above rest le_rfl
  rw [show level + rest = levels - 1 by omega] at reached
  exact absurd last reached.ne'

end Reads

end Numbers

section Converse

variable {params : PublicParameters} (bounds : params.SizeBounds) {pirParams : PIRParameters}
  {bytes : ℕ}

theorem decrypt_blank (scheme : PlainScheme) (recLvl : ℕ) (data : ℕ → UInt8)
    (blank : IsBlank data) : IsBlank (scheme.decrypt recLvl data) :=
  fun _ => blank _

include bounds

/-- With too many coordinates, an element of bytes 200 is lost. -/
theorem RetrievesAll.rounds (all : RetrievesAll params pirParams bytes) (bytes_pos : 0 < bytes) :
    LatticesBasedCryptosystem.RoundsFit pirParams := by
  intro last last_lt
  by_contra exceeds
  have wide : 8 < pirParams.n last := by
    rw [maxQuerySize] at exceeds
    omega
  rcases pirParams.exists_chosenElement last_lt wide with ⟨chosenElement, inside, coordinate⟩
  have slot_lt := bounds.absorption_pos.trans_le bounds.absorption_le
  rcases all (marked bounds 0 slot_lt).crypto encrypt Prod.snd (marked bounds 0 slot_lt).cipherBytes
    plainBytes (marked bounds 0 slot_lt).decrypt rfl ((marked bounds 0 slot_lt).ideal _ _)
    (fun _ _ => ()) chosenElement inside (fun _ _ _ => 200) (fun _ _ => 0) with
    ⟨fuel, final, clearChunks, returns, extracts, queued⟩
  have received := pirParams.received_generateQuery encrypt (fun _ _ => ()) chosenElement
    (fun _ _ => (0 : ℕ × (ℕ → ℤ)))
  rcases exists_of_extractReply (decrypt_blank _) extracts with ⟨first, first_eq, blank⟩
  have first_blank : first.Blank := by
    refine blank_of_taken (decrypt_blank _) (by simp) ?_ first_eq
    intro number _ j _ taken takes position
    rcases taken_of_replies takes with ⟨j_lt, taken_eq⟩
    have last_level : pirParams.d - 1 < pirParams.d := Nat.sub_lt pirParams.d_pos Nat.one_pos
    rw [taken_eq]
    rcases byte_of_exceeds received returns exceeds coordinate last_level
      (pirParams.nbElements_pos _) j_lt position with zero | ⟨_, before⟩
    · exact zero
    · omega
  have zero := queued.eq_zero (blank first_blank) (bounds.plaintexts_pos bytes_pos 0)
    bounds.absorption_pos
  change toByte 200 = 0 at zero
  exact absurd zero (by decide)

/-- The numbers of the extraction, of which the first is right, and where they read. -/
theorem RetrievesAll.exists_numbers (all : RetrievesAll params pirParams bytes)
    (bytes_pos : 0 < bytes) :
    ∃ numbers, params.Extracts pirParams.d bytes numbers ∧
      numbers 0 = params.plaintexts bytes 0 ∧ numbers (pirParams.d - 1) < 2 ^ 32 ∧
      params.ciphertextNbr pirParams.d (toInt bytes) = some (numbers (pirParams.d - 1)) ∧
      ∀ level, level + 1 < pirParams.d → ∀ j < numbers level,
        j * params.ciphertextBytesize % 2 ^ 32 + params.ciphertextBytesize ≤
          params.absorptionBytesize * numbers (level + 1) := by
  have slot_lt := bounds.absorption_pos.trans_le bounds.absorption_le
  have d_eq : pirParams.d - 1 + 1 = pirParams.d := Nat.sub_add_cancel pirParams.d_pos
  rcases all (marked bounds 0 slot_lt).crypto encrypt Prod.snd (marked bounds 0 slot_lt).cipherBytes
    plainBytes (marked bounds 0 slot_lt).decrypt rfl ((marked bounds 0 slot_lt).ideal _ _)
    (fun _ _ => ()) 0 (pirParams.nbElements_pos 0) (fun _ _ _ => 0) (fun _ _ => 0) with
    ⟨fuel, final, clearChunks, returns, extracts, queued⟩
  rcases numbers_of_extractReply extracts with ⟨counted, counted_eq, reads, length_eq⟩
  change ∀ level < pirParams.d, params.ciphertextNbr (level + 1) (toInt bytes) = some (counted level) ∧
    counted level < 2 ^ 32 at counted_eq
  have first_eq : counted 0 = params.plaintexts bytes 0 := length_eq.symm.trans queued.1
  have counted_pos : ∀ level < pirParams.d, 0 < counted level := by
    intro level level_lt
    induction level with
    | zero =>
        rw [first_eq]
        exact bounds.plaintexts_pos bytes_pos 0
    | succ level ih =>
        have read : 0 * params.ciphertextBytesize % 2 ^ 32 + params.ciphertextBytesize ≤
            params.absorptionBytesize * counted (level + 1) :=
          reads level level_lt 0 (ih (by omega))
        by_contra zero
        rw [Nat.eq_zero_of_not_pos zero, Nat.mul_zero] at read
        omega
  have last : pirParams.d - 1 < pirParams.d := Nat.sub_lt pirParams.d_pos Nat.one_pos
  have last_counted := counted_eq _ last
  rw [d_eq] at last_counted
  rcases (bounds.ciphertextNbr_iff pirParams.d_pos (counted_pos _ last)
    (last_counted.2.trans (by decide))).mp last_counted.1 with ⟨numbers, chain, last_eq⟩
  -- Each level computes the same numbers again.
  have same : ∀ level < pirParams.d, numbers level = counted level := by
    intro level level_lt
    have number_lt := (bounds.extracts_mono chain level_lt).2.trans_lt (last_eq ▸ last_counted.2)
    have again := (bounds.ciphertextNbr_iff (Nat.succ_pos level) (chain.number_pos level_lt)
      (number_lt.trans (by decide))).mpr ⟨numbers, chain.lower level_lt, rfl⟩
    exact Option.some.inj (again.symm.trans (counted_eq level level_lt).1)
  refine ⟨numbers, chain, ?_, ?_, ?_, ?_⟩
  · rw [same 0 pirParams.d_pos, first_eq]
  · rw [last_eq]
    exact last_counted.2
  · rw [last_eq]
    exact last_counted.1
  · intro level level_lt
    rw [same level (by omega), same (level + 1) level_lt]
    exact reads level level_lt

omit bounds in
theorem div_of_last {size blocks count : ℕ} (count_pos : 0 < count)
    (inside : count ≤ size * blocks) (below : size * blocks < count + size) :
    (count - 1) / size = blocks - 1 := by
  have blocks_pos : 0 < blocks := by
    by_contra zero
    rw [Nat.eq_zero_of_not_pos zero] at inside
    omega
  rw [Nat.mul_comm] at inside below
  apply Nat.div_eq_of_lt_le
  · rw [Nat.sub_one_mul]
    omega
  · rw [Nat.sub_add_cancel blocks_pos]
    omega

/-- The last byte of the last plaintext of the first level is led through the last plaintexts. -/
theorem markAt_last (bytes_pos : 0 < bytes) (level : ℕ) :
    markAt params (params.ciphertextBytesize - 1)
        (params.plaintexts bytes 0 * params.absorptionBytesize - 1) level /
      params.absorptionBytesize = params.plaintexts bytes level - 1 := by
  have size_pos := bounds.absorption_pos
  have larger := bounds.absorption_le
  have plaintexts_pos := bounds.plaintexts_pos bytes_pos
  induction level with
  | zero =>
      rw [markAt, Nat.mul_comm]
      exact div_of_last (Nat.mul_pos size_pos (plaintexts_pos 0)) le_rfl (by omega)
  | succ level ih =>
      have count_pos := Nat.mul_pos (plaintexts_pos level) (size_pos.trans_le larger)
      have ciphertext_le := Nat.le_mul_of_pos_left params.ciphertextBytesize (plaintexts_pos level)
      have last_eq : (params.plaintexts bytes level - 1) * params.ciphertextBytesize +
          (params.ciphertextBytesize - 1) =
            params.plaintexts bytes level * params.ciphertextBytesize - 1 := by
        rw [Nat.sub_one_mul]
        omega
      rw [markAt, ih, last_eq]
      exact div_of_last count_pos ((ceilDiv_le_iff_le_mul size_pos).mp le_rfl)
        (ceilDiv_mul_lt _ size_pos)

/-- The client's first level, for a single byte that is led through all levels. -/
theorem RetrievesAll.exists_first (all : RetrievesAll params pirParams bytes)
    (bytes_pos : 0 < bytes)
    (bytes_lt : params.plaintexts bytes (pirParams.d - 1) * params.absorptionBytesize < 2 ^ 53)
    {first slot : ℕ} (slot_lt : slot < params.ciphertextBytesize)
    (inside : ∀ level < pirParams.d, markAt params slot first level / params.absorptionBytesize <
      params.plaintexts bytes level) :
    ∃ fuel state, ∃ replies : ℕ → ℕ → UInt8,
      extractLevel params pirParams (marked bounds first slot_lt).decrypt fuel (toInt bytes)
        pirParams.d ⟨(List.range (params.plaintexts bytes (pirParams.d - 1))).map replies,
          ⟨0, fun _ => 0⟩, []⟩ = some state ∧
      ¬ state.Blank ∧
      ∀ poly < params.plaintexts bytes (pirParams.d - 1), ∃ values : ℕ → ℤ,
        replies poly = (marked bounds first slot_lt).cipherBytes (pirParams.d, values) ∧
        ∀ i < params.absorptionBytesize, values i = if poly * params.absorptionBytesize + i =
          markAt params slot first (pirParams.d - 1) then 1 else 0 := by
  have polys : ∀ level < pirParams.d, (marked bounds first slot_lt).crypto.levelPolys
      (params.plaintexts bytes 0) level = params.plaintexts bytes level := by
    intro level level_lt
    have level_le := Nat.mul_le_mul_right params.absorptionBytesize (bounds.plaintexts_mono bytes
      (show level ≤ pirParams.d - 1 by omega))
    exact @LatticesBasedCryptosystem.levelPolys_eq_of_bytes _ _ _ params rfl bounds _ _
      (level_le.trans_lt bytes_lt)
  rcases all (marked bounds first slot_lt).crypto encrypt Prod.snd
    (marked bounds first slot_lt).cipherBytes plainBytes (marked bounds first slot_lt).decrypt rfl
    ((marked bounds first slot_lt).ideal _ _) (fun _ _ => ()) 0 (pirParams.nbElements_pos 0)
    (markedData params first) (fun _ _ => 0) with
    ⟨fuel, final, clearChunks, returns, extracts, queued⟩
  have received := pirParams.received_generateQuery encrypt (fun _ _ => ()) 0
    (fun _ _ => (0 : ℕ × (ℕ → ℤ)))
  have last : pirParams.d - 1 < pirParams.d := Nat.sub_lt pirParams.d_pos Nat.one_pos
  rw [polys _ last] at extracts
  rcases exists_of_extractReply (decrypt_blank _) extracts with ⟨state, state_eq, blank⟩
  refine ⟨fuel, state, _, state_eq, ?_, ?_⟩
  · intro state_blank
    have first_lt := inside 0 pirParams.d_pos
    have zero := queued.eq_zero (blank state_blank) first_lt
      (Nat.mod_lt first bounds.absorption_pos)
    change toByte (if first / params.absorptionBytesize * params.absorptionBytesize +
      first % params.absorptionBytesize = first then 1 else 0) = 0 at zero
    rw [if_pos (Nat.div_add_mod' _ _)] at zero
    exact absurd zero (by decide)
  · intro poly poly_lt
    exact exists_reply bounds slot_lt (all.rounds bounds bytes_pos) received returns
      (fun level level_lt => by rw [polys level level_lt]; exact inside level level_lt)
      (by rw [polys _ last]; exact poly_lt)

/-- The number of replies that the client takes is right, or else the last of them is lost. -/
theorem RetrievesAll.number (all : RetrievesAll params pirParams bytes) (bytes_pos : 0 < bytes)
    (bytes_lt : params.plaintexts bytes (pirParams.d - 1) * params.absorptionBytesize < 2 ^ 53) :
    params.ciphertextNbr pirParams.d (toInt bytes) =
      some (params.plaintexts bytes (pirParams.d - 1)) := by
  have ciphertext_pos := bounds.absorption_pos.trans_le bounds.absorption_le
  have slot_lt : params.ciphertextBytesize - 1 < params.ciphertextBytesize :=
    Nat.sub_lt ciphertext_pos Nat.one_pos
  have plaintexts_pos := bounds.plaintexts_pos bytes_pos
  rcases all.exists_first bounds bytes_pos bytes_lt slot_lt
    (fun level _ => by
      rw [markAt_last bounds bytes_pos]
      exact Nat.sub_lt (plaintexts_pos level) Nat.one_pos) with
    ⟨fuel, state, replies, state_eq, not_blank, replies_eq⟩
  rcases exists_of_extractLevel state_eq with ⟨number, final, number_eq, -⟩
  have number_le := le_length_of_extractLevel state_eq number_eq
  rw [List.length_map, List.length_range] at number_le
  rcases number_le.lt_or_eq with fewer | equal
  · exfalso
    apply not_blank
    refine blank_of_taken (decrypt_blank _) (by simp) ?_ state_eq
    intro count count_eq j j_lt taken takes position
    obtain rfl := Option.some.inj (number_eq.symm.trans count_eq)
    rcases taken_of_replies takes with ⟨j_inside, taken_eq⟩
    rcases replies_eq j j_inside with ⟨values, bytes_eq, values_eq⟩
    rw [taken_eq, bytes_eq, cipherBytes]
    split
    next within =>
      dsimp only at within ⊢
      replace within : _ < params.absorptionBytesize := within
      rw [values_eq _ within, if_neg]
      · rfl
      intro same
      have quotient := markAt_last bounds bytes_pos (pirParams.d - 1)
      rw [← same, Nat.mul_comm, Nat.mul_add_div bounds.absorption_pos, Nat.div_eq_of_lt within]
        at quotient
      omega
    next => rfl
  · rw [number_eq, equal]

omit bounds in
/-- A byte of the first plaintext that has the same place in its ciphertext stays there. -/
theorem markAt_of_lt {first : ℕ} (inside : first < params.absorptionBytesize) (level : ℕ) :
    markAt params first first level = first := by
  induction level with
  | zero => rfl
  | succ level ih =>
      rw [markAt, ih, Nat.div_eq_of_lt inside, Nat.zero_mul, Nat.zero_add]

/-- The first plaintext whose offset wraps around. -/
theorem exists_wrapping {level : ℕ} (plaintexts_pos : 0 < params.plaintexts bytes level)
    (exceeds : 2 ^ 32 ≤ (params.plaintexts bytes level - 1) * params.absorptionBytesize) :
    ∃ wrapping, 0 < wrapping ∧ wrapping < params.plaintexts bytes level ∧
      2 ^ 32 ≤ params.absorptionBytesize * wrapping ∧
      params.absorptionBytesize * wrapping < 2 ^ 32 + params.absorptionBytesize := by
  have size_pos := bounds.absorption_pos
  have first_le : 2 ^ 32 ⌈/⌉ params.absorptionBytesize ≤ params.plaintexts bytes level - 1 := by
    rw [ceilDiv_le_iff_le_mul size_pos, Nat.mul_comm]
    exact exceeds
  exact ⟨_, ceilDiv_pos size_pos (Nat.two_pow_pos 32), by omega,
    (ceilDiv_le_iff_le_mul size_pos).mp le_rfl, ceilDiv_mul_lt (2 ^ 32) size_pos⟩

/--
The plaintexts of the last level, of which the last byte of the first is the only one that is
not zero. The plaintext whose offset wraps around overwrites it.
-/
structure Overwritten (params : PublicParameters) (pirParams : PIRParameters)
    (replies : List (ℕ → UInt8)) (wrapping j : ℕ) (inner : ExtractionState) : Prop where
  buffer_eq : inner.repliesBuffer = remaining pirParams pirParams.d j replies
  cleared : inner.clearChunks = []
  others : ∀ i, i ≠ params.absorptionBytesize - 1 → inner.inData2b i = 0
  lost : wrapping < j → inner.inData2b (params.absorptionBytesize - 1) = 0

theorem Overwritten.step {decrypt : ℕ → (ℕ → UInt8) → ℕ → UInt8} {replies : ℕ → ℕ → UInt8}
    {count wrapping j : ℕ} {inData : Allocation} {inner after : ExtractionState}
    (several : 1 < pirParams.d) (wrapping_pos : 0 < wrapping)
    (wraps : 2 ^ 32 ≤ params.absorptionBytesize * wrapping)
    (wraps_lt : params.absorptionBytesize * wrapping < 2 ^ 32 + params.absorptionBytesize)
    (zero : j < count → ∀ i < params.absorptionBytesize,
      (0 < j ∨ i ≠ params.absorptionBytesize - 1) → decrypt pirParams.d (replies j) i = 0)
    (before : Overwritten params pirParams ((List.range count).map replies) wrapping j inner)
    (steps : extractCiphertext params pirParams decrypt pirParams.d inData j inner = some after) :
    Overwritten params pirParams ((List.range count).map replies) wrapping (j + 1) after := by
  have size_pos := bounds.absorption_pos
  have size_lt := bounds.absorption_lt
  rcases Option.map_eq_some_iff.mp steps with ⟨taken, takes, rfl⟩
  rw [before.buffer_eq] at takes
  rcases taken_of_replies takes with ⟨j_inside, taken_eq⟩
  have plain := zero j_inside
  rw [← taken_eq] at plain
  rw [if_pos several]
  refine ⟨(nextCiphertext_remaining takes).1, before.cleared, ?_, ?_⟩
  · intro i i_ne
    dsimp only
    rw [memcpy]
    split
    next within =>
      apply plain _ (by omega)
      rcases Nat.eq_zero_or_pos j with rfl | later
      · right
        rw [Nat.mul_zero, Nat.zero_mod, Nat.sub_zero]
        exact i_ne
      · exact Or.inl later
    next => exact before.others i i_ne
  · intro after_wrapping
    dsimp only
    rw [memcpy]
    split
    next within => exact plain _ (by omega) (Or.inl (by omega))
    next outside =>
      rcases Nat.lt_succ_iff_lt_or_eq.mp after_wrapping with earlier | rfl
      · exact before.lost earlier
      · omega

/-- The offsets of the plaintexts are right, or else the first of them is overwritten. -/
theorem RetrievesAll.offsets (all : RetrievesAll params pirParams bytes) (bytes_pos : 0 < bytes)
    (bytes_lt : params.plaintexts bytes (pirParams.d - 1) * params.absorptionBytesize < 2 ^ 53) :
    OffsetsFit params pirParams.d bytes := by
  intro level level_lt level_pos
  by_contra exceeds
  have size_pos := bounds.absorption_pos
  have larger := bounds.absorption_le
  have mark_lt : params.absorptionBytesize - 1 < params.absorptionBytesize :=
    Nat.sub_lt size_pos Nat.one_pos
  have slot_lt : params.absorptionBytesize - 1 < params.ciphertextBytesize := by omega
  rcases all.exists_first bounds bytes_pos bytes_lt slot_lt
    (fun level _ => by
      rw [markAt_of_lt mark_lt, Nat.div_eq_of_lt mark_lt]
      exact bounds.plaintexts_pos bytes_pos level) with
    ⟨fuel, state, replies, state_eq, not_blank, replies_eq⟩
  rcases exists_wrapping bounds (bounds.plaintexts_pos bytes_pos level) (not_lt.mp exceeds) with
    ⟨wrapping, wrapping_pos, wrapping_lt, wraps, wraps_lt⟩
  have level_le := bounds.plaintexts_mono bytes (show level ≤ pirParams.d - 1 by omega)
  have zero : ∀ j < params.plaintexts bytes (pirParams.d - 1), ∀ i < params.absorptionBytesize,
      (0 < j ∨ i ≠ params.absorptionBytesize - 1) →
        (marked bounds (params.absorptionBytesize - 1) slot_lt).decrypt pirParams.d (replies j) i =
          0 := by
    intro j j_lt i i_lt different
    rcases replies_eq j j_lt with ⟨values, bytes_eq, values_eq⟩
    rw [(marked bounds _ slot_lt).decrypt_cipherBytes (fun _ _ => by rw [bytes_eq]) i_lt,
      plainBytes, values_eq i i_lt, markAt_of_lt mark_lt, if_neg]
    · rfl
    intro same
    rcases Nat.eq_zero_or_pos j with rfl | later
    · omega
    · have block_le := Nat.le_mul_of_pos_left params.absorptionBytesize later
      omega
  rcases exists_of_extractLevel state_eq with ⟨number, final, number_eq, number_lt, loop, rfl⟩
  obtain rfl := Option.some.inj (number_eq.symm.trans (all.number bounds bytes_pos bytes_lt))
  have kept := counterLoop_invariant
    (Overwritten params pirParams
      ((List.range (params.plaintexts bytes (pirParams.d - 1))).map replies) wrapping) number_lt
    (fun j _ _ j_lt before steps => before.step bounds (by omega) wrapping_pos wraps wraps_lt
      (fun _ => zero j j_lt) steps)
    ⟨by rw [remaining, if_pos rfl, List.drop_zero], rfl, fun _ _ => rfl, fun _ => rfl⟩ loop
  apply not_blank
  refine ⟨?_, ?_⟩
  · intro i
    by_cases at_mark : i = params.absorptionBytesize - 1
    · rw [at_mark]
      exact kept.lost (wrapping_lt.trans_le level_le)
    · exact kept.others i at_mark
  · dsimp only
    rw [kept.cleared]
    simp

end Converse

/--
The chosen element is retrieved with every ideal scheme exactly if no dimension is too
large for the rounds of the server, no number of bytes is rounded over the end of its last
plaintext, no offset into the buffers of the client wraps around, and the number of
replies is an `unsigned int`.
-/
theorem retrievesAll_iff {params : PublicParameters} {poly : PolyShape}
    {absPerCoordinateBitsize : ℕ} (sizes : params.HasSizes poly absPerCoordinateBitsize)
    (pirParams : PIRParameters) {bytes : ℕ} (bytes_pos : 0 < bytes) :
    RetrievesAll params pirParams bytes ↔
      LatticesBasedCryptosystem.RoundsFit pirParams ∧ params.KeepsChunks pirParams.d bytes ∧
        OffsetsFit params pirParams.d bytes ∧
          params.plaintexts bytes (pirParams.d - 1) < 2 ^ 32 := by
  have bounds := sizes.bounds
  have last : pirParams.d - 1 < pirParams.d := Nat.sub_lt pirParams.d_pos Nat.one_pos
  constructor
  · intro all
    rcases all.exists_numbers bounds bytes_pos with
      ⟨numbers, extracts, first_eq, last_lt, last_number, reads⟩
    have bytes_lt := plaintexts_mul_lt_of_extracts bounds extracts first_eq last last_lt
    have offsets := all.offsets bounds bytes_pos bytes_lt
    have last_eq : numbers (pirParams.d - 1) = params.plaintexts bytes (pirParams.d - 1) :=
      Option.some.inj (last_number.symm.trans (all.number bounds bytes_pos bytes_lt))
    have right : ∀ level < pirParams.d, numbers level = params.plaintexts bytes level :=
      fun level level_lt =>
        eq_plaintexts_of_reads bounds bytes_pos extracts first_eq offsets reads last_eq level_lt
    refine ⟨all.rounds bounds bytes_pos, ?_, offsets, last_eq ▸ last_lt⟩
    exact (bounds.extracts_plaintexts_iff bytes_pos).mp (extracts.congr pirParams.d_pos right)
  · rintro ⟨rounds, keeps, offsets, few⟩
    intro Poly Cipher Coins group crypto encrypt dec cipherBytes plainBytes decrypt same ideal coins
      chosenElement inside inputData initial
    exact retrieves_of_fits same bounds bytes_pos few ideal rounds keeps offsets
      (pirParams.received_generateQuery encrypt coins chosenElement initial) inside

/-- A plaintext of 128 bytes, one bit for each coefficient, and a ciphertext of 16384 bytes. -/
def oneBit : PublicParameters := ⟨1024, 131072⟩

open LatticesBasedCryptosystem in
theorem oneBit_hasSizes : oneBit.HasSizes degree1024 1 :=
  ⟨by decide, by decide, by decide, rfl, by decide⟩

/-- An element of 100000 bytes has 782 plaintexts, then 100096, and 12812288 at last. -/
theorem oneBit_keepsChunks : oneBit.KeepsChunks 3 100000 := by
  have bounds := oneBit_hasSizes.bounds
  refine ⟨by decide, bounds.staysWithin_of_lt (by decide) (by decide), ?_⟩
  intro level level_lt
  have levels : level = 0 ∨ level = 1 := by omega
  rcases levels with rfl | rfl
  · rw [PublicParameters.roundedBytes_natCast (by decide)]
    exact bounds.staysWithin_of_full 782 14 (by decide) (by decide) (by decide) (by decide)
  · rw [PublicParameters.roundedBytes_natCast (by decide)]
    exact bounds.staysWithin_of_full 100096 14 (by decide) (by decide) (by decide) (by decide)

theorem retrievesAll_iff_threeDimensions : RetrievesAll oneBit
    ⟨1, 3, fun _ => 2, by decide, by decide, by decide, by decide⟩ 100000 := by
  refine (retrievesAll_iff oneBit_hasSizes _ (by decide)).mpr
    ⟨fun _ _ => (by decide : 2 ≤ maxQuerySize), oneBit_keepsChunks, ?_, by decide⟩
  intro level level_lt level_pos
  have levels : level = 1 ∨ level = 2 := by
    change level < 3 at level_lt
    omega
  rcases levels with rfl | rfl <;> decide

open LatticesBasedCryptosystem in
/-- An element of 16778241 bytes: one plaintext is not extracted. -/
theorem not_retrievesAll_large : ¬ RetrievesAll sized.publicParams
    ⟨1, 1, fun _ => 2, by decide, by decide, by decide, by decide⟩ 16778241 := by
  intro all
  exact sized_ciphertextNbr_ne (all.number sized_hasSizes.bounds (by decide) (by decide))

end PIRReplyExtraction

end Xpir
