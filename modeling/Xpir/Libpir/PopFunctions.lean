import Xpir.Foundations.CountedQueue
import Xpir.ReplyExtraction.PIRReplyExtraction
import Xpir.ReplyGenerator.ExtractedSizes

/-!
# Pop functions of the library

The library hands out the elements of a query, of a reply and of a retrieved file one by
one, by functions that return `false` at the end. Callers call them until they do.

For queries and files, the number of items is counted down to zero and no further. For
replies the counter is decremented after the end as well, and is then the largest 64-bit
integer: the next call looks for a reply behind the array. The number of replies is
computed from the size that the caller has asked for, even when the import has stopped at
the end of the files.
-/

namespace Xpir

namespace PIRParameters

variable (pirParams : PIRParameters)

/-- The number of elements of a query. -/
def nbQueries : ℕ := ∑ j ∈ Finset.range pirParams.d, pirParams.n j

theorem nbQueries_pos : 0 < pirParams.nbQueries := by
  have first_le : pirParams.n 0 ≤ pirParams.nbQueries :=
    Finset.single_le_sum (fun _ _ => Nat.zero_le _) (Finset.mem_range.mpr pirParams.d_pos)
  exact (pirParams.n_pos 0 pirParams.d_pos).trans_le first_le

theorem length_generateQuery {Coins Cipher : Type} (encrypt : Coins → ℕ → ℕ → Cipher)
    (coins : ℕ → ℕ → Coins) (chosenElement : ℕ) :
    (pirParams.generateQuery encrypt coins chosenElement).length = pirParams.nbQueries := by
  rw [generateQuery, List.length_flatMap]
  simp only [List.length_map, List.length_range]
  rfl

end PIRParameters

section Queries

variable {Coins Cipher : Type} (encrypt : Coins → ℕ → ℕ → Cipher) (coins : ℕ → ℕ → ℕ → Coins)
  (state : CountedQueue Cipher)

inductive QueryCall
  | generateQuery (pirParams : PIRParameters) (chosenElement : ℕ)
  | popQuery

/-- The query of a call, encrypted with coins of its own. -/
def queryOf (pirParams : PIRParameters) (chosenElement : ℕ) : List Cipher :=
  pirParams.generateQuery encrypt (coins state.generation) chosenElement

/-- `nbQueries` is an `int` to which the sizes of the dimensions are added. -/
def CountedQueue.generateQuery (pirParams : PIRParameters) (chosenElement : ℕ) :
    Option (CountedQueue Cipher) :=
  state.refill (toInt pirParams.nbQueries) (queryOf encrypt coins state pirParams chosenElement)

def QueryCall.step : QueryCall → Option (CountedQueue Cipher)
  | .generateQuery pirParams chosenElement =>
      state.generateQuery encrypt coins pirParams chosenElement
  | .popQuery => state.pop.map Prod.snd

/-- The generator after some calls. The constructor does not set the counter. -/
def queryRun (uninitialised : ℤ) (calls : List QueryCall) : Option (CountedQueue Cipher) :=
  calls.foldl (fun state call => state.bind (QueryCall.step encrypt coins · call))
    (some { generation := 0, counter := uninitialised, queue := [] })

/-- Whatever has been called before, a query is popped element by element, to its end. -/
def DeliversQueries (uninitialised : ℤ) (calls : List QueryCall) : Prop :=
  ∀ before pirParams chosenElement after,
    calls = before ++ .generateQuery pirParams chosenElement :: after →
    ∀ state, queryRun encrypt coins uninitialised before = some state →
      ∃ next, state.generateQuery encrypt coins pirParams chosenElement = some next ∧
        ∀ count, Delivers CountedQueue.pop
          (state.pushed (queryOf encrypt coins state pirParams chosenElement)) count next

/-- Each query has fewer than `2 ^ 31` elements, and is generated when none are left. -/
def QueriesUsedUp (uninitialised : ℤ) (calls : List QueryCall) : Prop :=
  ∀ before pirParams chosenElement after,
    calls = before ++ .generateQuery pirParams chosenElement :: after →
    ∀ state, queryRun encrypt coins uninitialised before = some state →
      pirParams.nbQueries < 2 ^ 31 ∧ state.queue = []

variable {encrypt coins state}

theorem filled_of_queryRun {uninitialised : ℤ} {calls : List QueryCall}
    (runs : queryRun encrypt coins uninitialised calls = some state) : state.Filled := by
  induction calls using List.reverseRecOn generalizing state with
  | nil =>
      obtain rfl := Option.some.inj runs
      exact ⟨fun item item_mem => absurd item_mem List.not_mem_nil, Nat.zero_le _⟩
  | append_singleton calls call ih =>
      rw [queryRun, List.foldl_append] at runs
      obtain ⟨before, earlier, steps⟩ := Option.bind_eq_some_iff.mp runs
      have filled := ih earlier
      cases call with
      | generateQuery pirParams chosenElement => exact filled.refill steps
      | popQuery =>
          obtain ⟨popped, pops, rfl⟩ := Option.map_eq_some_iff.mp steps
          exact filled.pop pops

/-- Queries are delivered exactly if each is generated when the one before is used up. -/
theorem deliversQueries_iff (uninitialised : ℤ) (calls : List QueryCall) :
    DeliversQueries encrypt coins uninitialised calls ↔
      QueriesUsedUp encrypt coins uninitialised calls := by
  refine forall₅_congr fun before pirParams chosenElement after _ =>
    forall₂_congr fun state runs => ?_
  have length_eq : (queryOf encrypt coins state pirParams chosenElement).length =
      pirParams.nbQueries := pirParams.length_generateQuery _ _ _
  have nonempty : queryOf encrypt coins state pirParams chosenElement ≠ [] := by
    intro empty
    have positive := pirParams.nbQueries_pos
    rw [← length_eq, empty] at positive
    exact absurd positive (lt_irrefl 0)
  rw [CountedQueue.generateQuery, CountedQueue.refill_delivers_iff (filled_of_queryRun runs),
    or_iff_left nonempty, length_eq, maxQueueSize]
  constructor
  · rintro ⟨few, -, empty⟩
    exact ⟨by omega, empty⟩
  · rintro ⟨few, empty⟩
    refine ⟨by omega, ?_, empty⟩
    rw [toInt, Nat.mod_eq_of_lt (by omega), if_pos few]

end Queries

section Files

open PublicParameters

variable (params : PublicParameters) (pirParams : PIRParameters)
  (decrypt : ℕ → (ℕ → UInt8) → ℕ → UInt8) (fuel : ℕ) (state : CountedQueue (ℕ → UInt8))

inductive ExtractionCall
  | extractReply (maxFileBytesize : ℕ) (repliesBuffer : List (ℕ → UInt8))
  | popPlaintextResult

/-- The plaintexts of a reply. The size of the aggregated file is passed as an `int`. -/
def plaintextsOf (maxFileBytesize : ℕ) (repliesBuffer : List (ℕ → UInt8)) :
    Option (List (ℕ → UInt8)) :=
  PIRReplyExtraction.extractReply params pirParams decrypt fuel
    (toInt (aggregatedFileSize pirParams maxFileBytesize)) repliesBuffer

def CountedQueue.extractReply (maxFileBytesize : ℕ) (repliesBuffer : List (ℕ → UInt8)) :
    Option (CountedQueue (ℕ → UInt8)) :=
  (plaintextsOf params pirParams decrypt fuel maxFileBytesize repliesBuffer).bind fun chunks =>
    (params.getnbPlaintextReplies pirParams maxFileBytesize).bind fun number =>
      state.refill number chunks

def ExtractionCall.step : ExtractionCall → Option (CountedQueue (ℕ → UInt8))
  | .extractReply maxFileBytesize repliesBuffer =>
      state.extractReply params pirParams decrypt fuel maxFileBytesize repliesBuffer
  | .popPlaintextResult => state.pop.map Prod.snd

def extractionRun (calls : List ExtractionCall) : Option (CountedQueue (ℕ → UInt8)) :=
  calls.foldl (fun state call =>
    state.bind (ExtractionCall.step params pirParams decrypt fuel · call))
    (some { generation := 0, counter := 0, queue := [] })

/-- Whatever has been called before, an extracted file is popped chunk by chunk, to its end. -/
def DeliversFiles (calls : List ExtractionCall) : Prop :=
  ∀ before maxFileBytesize repliesBuffer after,
    calls = before ++ .extractReply maxFileBytesize repliesBuffer :: after →
    ∀ state, extractionRun params pirParams decrypt fuel before = some state →
      ∀ chunks, plaintextsOf params pirParams decrypt fuel maxFileBytesize repliesBuffer =
          some chunks →
        ∃ next, state.extractReply params pirParams decrypt fuel maxFileBytesize repliesBuffer =
            some next ∧
          ∀ count, Delivers CountedQueue.pop (state.pushed chunks) count next

/--
The number of bytes of the aggregated file is an `int`. It is a `float` once as such and
once as a product of two `float`, and both are cut into the same number of plaintexts.
-/
def SameChunks (maxFileBytesize : ℕ) : Prop :=
  maxFileBytesize * pirParams.alpha < 2 ^ 31 ∧
    ⌈toFloat (toFloat (maxFileBytesize * pirParams.alpha : ℕ) / params.absorptionBytesize)⌉ =
      ⌈toFloat (toFloat (toFloat maxFileBytesize * toFloat pirParams.alpha) /
        params.absorptionBytesize)⌉ ∧
    ⌈toFloat (toFloat (maxFileBytesize * pirParams.alpha : ℕ) / params.absorptionBytesize)⌉ <
      2 ^ 31

/-- Each file is cut into the same chunks twice, and extracted when none are left. -/
def FilesUsedUp (calls : List ExtractionCall) : Prop :=
  ∀ before maxFileBytesize repliesBuffer after,
    calls = before ++ .extractReply maxFileBytesize repliesBuffer :: after →
    ∀ state, extractionRun params pirParams decrypt fuel before = some state →
      ∀ chunks, plaintextsOf params pirParams decrypt fuel maxFileBytesize repliesBuffer =
          some chunks →
        SameChunks params pirParams maxFileBytesize ∧ (state.queue = [] ∨ maxFileBytesize = 0)

variable {params pirParams decrypt fuel state}

theorem filled_of_extractionRun {calls : List ExtractionCall}
    (runs : extractionRun params pirParams decrypt fuel calls = some state) : state.Filled := by
  induction calls using List.reverseRecOn generalizing state with
  | nil =>
      obtain rfl := Option.some.inj runs
      exact ⟨fun item item_mem => absurd item_mem List.not_mem_nil, Nat.zero_le _⟩
  | append_singleton calls call ih =>
      rw [extractionRun, List.foldl_append] at runs
      obtain ⟨before, earlier, steps⟩ := Option.bind_eq_some_iff.mp runs
      have filled := ih earlier
      cases call with
      | extractReply maxFileBytesize repliesBuffer =>
          obtain ⟨chunks, -, rest⟩ := Option.bind_eq_some_iff.mp steps
          obtain ⟨number, -, refills⟩ := Option.bind_eq_some_iff.mp rest
          exact filled.refill refills
      | popPlaintextResult =>
          obtain ⟨popped, pops, rfl⟩ := Option.map_eq_some_iff.mp steps
          exact filled.pop pops

open PIRReplyExtraction in
/-- A level above the first leaves the queue alone; the first pushes all of its plaintexts. -/
theorem length_of_extractLevel {recLvl : ℕ} {aggregatedMaxFileSize : ℤ}
    {before next : PIRReplyExtraction.LevelState}
    (returns : extractLevel params pirParams decrypt fuel aggregatedMaxFileSize recLvl before =
      some next) :
    if 1 < recLvl then next.clearChunks = before.clearChunks
    else params.ciphertextNbr recLvl aggregatedMaxFileSize =
      some (next.clearChunks.length - before.clearChunks.length) := by
  obtain ⟨number, final, number_eq, number_lt, loop, rfl⟩ := exists_of_extractLevel returns
  have pushed := counterLoop_invariant (fun j inner =>
    if 1 < recLvl then inner.clearChunks = before.clearChunks
    else inner.clearChunks.length = before.clearChunks.length + j) number_lt
    (by
      intro j inner after _ current steps
      obtain ⟨taken, -, rfl⟩ := Option.map_eq_some_iff.mp steps
      split at current
      case isTrue deeper =>
        rw [if_pos deeper, if_pos deeper]
        exact current
      case isFalse first =>
        rw [if_neg first, if_neg first, List.length_append, current, List.length_singleton]
        exact Nat.add_assoc _ _ _)
    (by split <;> rfl) loop
  split at pushed
  case isTrue deeper =>
    rw [if_pos deeper]
    exact pushed
  case isFalse first =>
    rw [if_neg first, number_eq, pushed, Nat.add_sub_cancel_left]

open PIRReplyExtraction in
/-- The number of plaintexts is that of the ciphertexts of the first level. -/
theorem length_of_extractReply {aggregatedMaxFileSize : ℤ}
    {repliesBuffer clearChunks : List (ℕ → UInt8)}
    (returns : extractReply params pirParams decrypt fuel aggregatedMaxFileSize repliesBuffer =
      some clearChunks) :
    params.ciphertextNbr 1 aggregatedMaxFileSize = some clearChunks.length := by
  obtain ⟨final, runs, rfl⟩ := Option.map_eq_some_iff.mp returns
  have levels := forLoop_induction pirParams.d
    (fun count state => Option.bind state
      (extractLevel params pirParams decrypt fuel aggregatedMaxFileSize (pirParams.d - count)))
    (some ⟨repliesBuffer, ⟨0, fun _ => 0⟩, []⟩)
    (fun count reached => ∀ state, reached = some state →
      if count < pirParams.d then state.clearChunks = []
      else params.ciphertextNbr 1 aggregatedMaxFileSize = some state.clearChunks.length)
    (by
      rintro state ⟨⟩
      rw [if_pos pirParams.d_pos])
    (by
      intro count reached count_lt before next steps
      obtain ⟨state, rfl, level⟩ := Option.bind_eq_some_iff.mp steps
      have empty := before state rfl
      rw [if_pos count_lt] at empty
      have pushed := length_of_extractLevel level
      rw [empty] at pushed
      rcases Nat.lt_or_ge (count + 1) pirParams.d with deeper | first
      · rw [if_pos (by omega)] at pushed
        rw [if_pos deeper]
        exact pushed
      · rw [if_neg (by omega), (by omega : pirParams.d - count = 1)] at pushed
        rw [if_neg (by omega)]
        exact pushed)
  have last := levels final runs
  rwa [if_neg (lt_irrefl _)] at last

theorem toFloat_nonneg {x : ℚ} (nonneg : 0 ≤ x) : 0 ≤ toFloat x := roundTo_nonneg nonneg

theorem toFloat_le {x : ℚ} (nonneg : 0 ≤ x) : toFloat x ≤ 17 / 16 * x := by
  have scaled := @roundTo_mul_two_pow_le 24 _ nonneg
  rw [← toFloat] at scaled
  linarith

theorem le_toFloat {x : ℚ} (nonneg : 0 ≤ x) : 15 / 16 * x ≤ toFloat x := by
  have scaled := @le_roundTo_mul_two_pow 24 _ nonneg
  rw [← toFloat] at scaled
  linarith

theorem toUnsignedLong_eq_some {value : ℤ} {number : ℕ}
    (converts : toUnsignedLong value = some number) : value = number := by
  rw [toUnsignedLong] at converts
  split at converts
  case isTrue inside =>
    rw [← Option.some.inj converts, Int.toNat_of_nonneg inside.1]
  case isFalse => contradiction

/-- What `extractReply` counts for a size that is not an `int`. -/
theorem extracted_le_of_large (bounds : params.SizeBounds) {bytes number : ℕ}
    (large : 2 ^ 31 ≤ bytes)
    (counts : toUnsignedLong ⌈signedToFloat (signedToFloat (toInt (bytes % 2 ^ 64)) /
      params.absorptionBytesize)⌉ = some number) :
    (number : ℚ) * params.absorptionBytesize ≤ 17 / 16 * (17 / 16) * (bytes / 2) +
      params.absorptionBytesize := by
  have divisor_pos : (0 : ℚ) < params.absorptionBytesize := by
    exact_mod_cast bounds.absorption_pos
  have bytes_nonneg : (0 : ℚ) ≤ bytes := Nat.cast_nonneg bytes
  have ceil_eq := toUnsignedLong_eq_some counts
  rcases lt_or_ge (toInt (bytes % 2 ^ 64)) 0 with negative | nonneg
  · have size_neg : ((toInt (bytes % 2 ^ 64) : ℤ) : ℚ) < 0 := by exact_mod_cast negative
    have quotient_neg := signedToFloat_neg (div_neg_of_neg_of_pos
      (signedToFloat_neg size_neg) divisor_pos)
    have ceil_le : ⌈signedToFloat (signedToFloat (toInt (bytes % 2 ^ 64)) /
        params.absorptionBytesize)⌉ ≤ 0 := Int.ceil_le.mpr (by exact_mod_cast quotient_neg.le)
    have number_eq : number = 0 := by omega
    rw [number_eq, Nat.cast_zero, zero_mul]
    positivity
  · have rest : toInt (bytes % 2 ^ 64) = (bytes % 2 ^ 32 : ℕ) ∧ 2 * (bytes % 2 ^ 32) ≤ bytes := by
      rw [toInt] at nonneg ⊢
      split at nonneg
      case isTrue inside =>
        rw [if_pos inside]
        constructor <;> omega
      case isFalse => omega
    generalize bytes % 2 ^ 32 = remainder at rest
    have rest_nonneg : (0 : ℚ) ≤ remainder := Nat.cast_nonneg _
    have rest_le : (2 : ℚ) * remainder ≤ bytes := by exact_mod_cast rest.2
    rw [rest.1, Int.cast_natCast, signedToFloat_of_nonneg rest_nonneg] at ceil_eq
    have size_nonneg : 0 ≤ toFloat remainder := toFloat_nonneg rest_nonneg
    rw [signedToFloat_of_nonneg (div_nonneg size_nonneg divisor_pos.le)] at ceil_eq
    have number_lt := (Int.ceil_eq_iff.mp ceil_eq).1
    rw [Int.cast_natCast] at number_lt
    have quotient_le := toFloat_le (div_nonneg size_nonneg divisor_pos.le)
    have size_le := toFloat_le rest_nonneg
    have scaled : (number : ℚ) * params.absorptionBytesize ≤
        17 / 16 * toFloat remainder + params.absorptionBytesize := by
      have number_le : (number : ℚ) ≤ 17 / 16 * (toFloat remainder /
          params.absorptionBytesize) + 1 := by linarith
      calc (number : ℚ) * params.absorptionBytesize
          ≤ (17 / 16 * (toFloat remainder / params.absorptionBytesize) + 1) *
              params.absorptionBytesize := mul_le_mul_of_nonneg_right number_le divisor_pos.le
        _ = 17 / 16 * toFloat remainder + params.absorptionBytesize := by
            field_simp
    linarith

/-- The number of plaintexts that are handed out is that of the extracted ones. -/
theorem sameChunks_iff (bounds : params.SizeBounds) {maxFileBytesize number : ℕ}
    (counts : params.ciphertextNbr 1 (toInt (aggregatedFileSize pirParams maxFileBytesize)) =
      some number) :
    (params.getnbPlaintextReplies pirParams maxFileBytesize = some number ∧ number < 2 ^ 31) ↔
      SameChunks params pirParams maxFileBytesize := by
  have absorption_lt := bounds.absorption_lt
  have divisor_pos : (0 : ℚ) < params.absorptionBytesize := by
    exact_mod_cast bounds.absorption_pos
  have divisor_eq : toFloat params.absorptionBytesize = params.absorptionBytesize :=
    toFloat_natCast (by omega)
  change toUnsignedLong ⌈signedToFloat (signedToFloat _ / toFloat _)⌉ = some number at counts
  rw [divisor_eq] at counts
  rw [getnbPlaintextReplies, divisor_eq, SameChunks]
  rcases Nat.lt_or_ge (maxFileBytesize * pirParams.alpha) (2 ^ 31) with small | large
  · have size_eq : toInt (aggregatedFileSize pirParams maxFileBytesize) =
        (maxFileBytesize * pirParams.alpha : ℕ) := by
      rw [aggregatedFileSize, toInt, Nat.mod_eq_of_lt (by omega : _ < 2 ^ 64),
        Nat.mod_eq_of_lt (by omega : _ < 2 ^ 32), if_pos small]
    have size_nonneg : (0 : ℚ) ≤ (maxFileBytesize * pirParams.alpha : ℕ) := Nat.cast_nonneg _
    rw [size_eq, Int.cast_natCast, signedToFloat_of_nonneg size_nonneg, signedToFloat_of_nonneg
      (div_nonneg (toFloat_nonneg size_nonneg) divisor_pos.le)] at counts
    rw [toUnsignedLong_eq_some counts]
    constructor
    · rintro ⟨converts, few⟩
      exact ⟨small, (toUnsignedLong_eq_some converts).symm, by exact_mod_cast few⟩
    · rintro ⟨-, same, few⟩
      have few_nat : number < 2 ^ 31 := by exact_mod_cast few
      refine ⟨?_, few_nat⟩
      rw [← same, toUnsignedLong, if_pos (by omega), Int.toNat_natCast]
  · refine iff_of_false ?_ (fun same => absurd same.1 (not_lt.mpr large))
    rintro ⟨converts, -⟩
    have extracted_le := extracted_le_of_large bounds large counts
    have number_ge : toFloat (toFloat (toFloat maxFileBytesize * toFloat pirParams.alpha) /
        params.absorptionBytesize) ≤ number := by
      have ceil_eq := toUnsignedLong_eq_some converts
      exact_mod_cast Int.ceil_le.mp ceil_eq.le
    have size_nonneg : (0 : ℚ) ≤ maxFileBytesize := Nat.cast_nonneg _
    have alpha_nonneg : (0 : ℚ) ≤ pirParams.alpha := Nat.cast_nonneg _
    have product_ge : 15 / 16 * (maxFileBytesize : ℚ) * (15 / 16 * pirParams.alpha) ≤
        toFloat maxFileBytesize * toFloat pirParams.alpha :=
      mul_le_mul (le_toFloat size_nonneg) (le_toFloat alpha_nonneg) (by positivity)
        (toFloat_nonneg size_nonneg)
    have product_nonneg : 0 ≤ toFloat maxFileBytesize * toFloat pirParams.alpha :=
      mul_nonneg (toFloat_nonneg size_nonneg) (toFloat_nonneg alpha_nonneg)
    have rounded_ge := le_toFloat product_nonneg
    have quotient_ge := le_toFloat (div_nonneg (toFloat_nonneg product_nonneg) divisor_pos.le)
    have scaled : 15 / 16 * toFloat (toFloat maxFileBytesize * toFloat pirParams.alpha) ≤
        number * params.absorptionBytesize := by
      have both := quotient_ge.trans number_ge
      rwa [← mul_div_assoc, div_le_iff₀ divisor_pos] at both
    have large_cast : (2 : ℚ) ^ 31 ≤ (maxFileBytesize * pirParams.alpha : ℕ) := by
      exact_mod_cast large
    have divisor_le : (params.absorptionBytesize : ℚ) ≤ 2 ^ 20 := by
      exact_mod_cast absorption_lt.le
    push_cast at large_cast extracted_le
    linarith

/-- Without bytes, there are no plaintexts. -/
theorem SameChunks.eq_nil_iff (bounds : params.SizeBounds) {maxFileBytesize : ℕ}
    {chunks : List (ℕ → UInt8)} (same : SameChunks params pirParams maxFileBytesize)
    (counts : params.getnbPlaintextReplies pirParams maxFileBytesize = some chunks.length) :
    chunks = [] ↔ maxFileBytesize = 0 := by
  have absorption_lt := bounds.absorption_lt
  have divisor_pos : (0 : ℚ) < params.absorptionBytesize := by
    exact_mod_cast bounds.absorption_pos
  have divisor_eq : toFloat params.absorptionBytesize = params.absorptionBytesize :=
    toFloat_natCast (by omega)
  have zero : toFloat 0 = 0 := by exact_mod_cast toFloat_natCast (by decide : 0 < 2 ^ 24)
  rw [getnbPlaintextReplies, divisor_eq] at counts
  have length_eq := toUnsignedLong_eq_some counts
  rw [← same.2.1] at length_eq
  constructor
  · rintro rfl
    by_contra size_ne
    have bytes_pos : (0 : ℚ) < (maxFileBytesize * pirParams.alpha : ℕ) := by
      exact_mod_cast Nat.mul_pos (Nat.pos_of_ne_zero size_ne) pirParams.alpha_pos
    have quotient_pos := toFloat_pos (div_pos (toFloat_pos bytes_pos) divisor_pos)
    have ceil_pos := Int.ceil_pos.mpr quotient_pos
    rw [length_eq] at ceil_pos
    exact absurd ceil_pos (lt_irrefl 0)
  · rintro rfl
    rw [Nat.zero_mul, Nat.cast_zero, zero, zero_div, zero, Int.ceil_zero] at length_eq
    exact List.eq_nil_of_length_eq_zero (by exact_mod_cast length_eq.symm)

/--
Files are delivered exactly if each is extracted when the one before is used up, and its
size is rounded to the same number of plaintexts twice.
-/
theorem deliversFiles_iff (bounds : params.SizeBounds) (calls : List ExtractionCall) :
    DeliversFiles params pirParams decrypt fuel calls ↔
      FilesUsedUp params pirParams decrypt fuel calls := by
  refine forall₅_congr fun before maxFileBytesize repliesBuffer after _ =>
    forall₂_congr fun state runs => forall₂_congr fun chunks extracts => ?_
  have filled := filled_of_extractionRun runs
  have same_iff := sameChunks_iff bounds (length_of_extractReply extracts)
  rw [CountedQueue.extractReply, extracts, Option.bind_some]
  constructor
  · rintro ⟨next, both, delivers⟩
    obtain ⟨number, number_eq, refills⟩ := Option.bind_eq_some_iff.mp both
    obtain ⟨few, counter_eq, empty⟩ :=
      (CountedQueue.refill_delivers_iff filled _ _).mp ⟨next, refills, delivers⟩
    obtain rfl : number = chunks.length := by exact_mod_cast counter_eq
    have same := same_iff.mp ⟨number_eq, by rw [maxQueueSize] at few; omega⟩
    exact ⟨same, empty.imp_right (same.eq_nil_iff bounds number_eq).mp⟩
  · rintro ⟨same, empty⟩
    obtain ⟨number_eq, few⟩ := same_iff.mpr same
    rw [number_eq, Option.bind_some, CountedQueue.refill_delivers_iff filled, maxQueueSize]
    exact ⟨by omega, rfl, empty.imp_right (same.eq_nil_iff bounds number_eq).mpr⟩

end Files

section Replies

open PublicParameters LatticesBasedCryptosystem

/-- What `popReply` reads and writes. -/
structure ReplyQueue (Cipher : Type) where
  nbRepliesToHandle : ℕ
  nbRepliesGenerated : ℕ
  currentReply : ℕ
  repliesAmount : ℕ
  repliesArray : ℕ → Option Cipher

/--
The next reply. The counter is decremented in any case. Reading behind the array, and
waiting for a reply that does not come, are no results.
-/
def ReplyQueue.popReply {Cipher : Type} (state : ReplyQueue Cipher) :
    Option (Option Cipher × ReplyQueue Cipher) :=
  let counted := { state with nbRepliesToHandle := wordSub state.nbRepliesToHandle 1 }
  if state.nbRepliesToHandle ≤ 0 then some (none, counted)
  else if state.currentReply < state.repliesAmount then
    (state.repliesArray state.currentReply).map fun reply =>
      (some reply,
        { counted with
          repliesArray := Function.update state.repliesArray state.currentReply none
          currentReply := state.currentReply + 1 })
  else none

variable {Poly Cipher : Type} (crypto : LatticesBasedCryptosystem Poly Cipher)
  (pirParams : PIRParameters) (fuel : ℕ) (queriesBuf : ℕ → ℕ → Cipher) (inputData : ℕ → ℕ → Poly)
  (subtract : Option (ℕ → Cipher)) (maxFileBytesize offset bytesPerDbElement : ℕ)

/-- The reply generation for a database that has been imported from an offset on. -/
def importedReply : Option (ReplyState Poly Cipher) :=
  crypto.generateReply pirParams fuel queriesBuf inputData
    (crypto.publicParams.importedPolys pirParams maxFileBytesize offset bytesPerDbElement) subtract

/--
`generateReply` of the library, with and without a request. The array is allocated anew
with the computed number of replies, and filled with those of the last level.
-/
def Libpir.generateReply : Option (ReplyQueue Cipher) :=
  (crypto.publicParams.computeReplySizeInChunks pirParams bytesPerDbElement).bind fun amount =>
    (importedReply crypto pirParams fuel queriesBuf inputData subtract maxFileBytesize offset
      bytesPerDbElement).bind fun final =>
      if crypto.producedPolys pirParams maxFileBytesize offset bytesPerDbElement ≤ amount then
        some
          { nbRepliesToHandle := amount
            nbRepliesGenerated := amount
            currentReply := 0
            repliesAmount := amount
            repliesArray := fun k =>
              if k < crypto.producedPolys pirParams maxFileBytesize offset bytesPerDbElement then
                some (repliesArray pirParams final k)
              else none }
      else none

/-- A number of calls of `popReply` deliver the reply, and then report the end. -/
def DeliversReplies (final : ReplyState Poly Cipher) (count : ℕ) : Prop :=
  ∃ state, Libpir.generateReply crypto pirParams fuel queriesBuf inputData subtract
      maxFileBytesize offset bytesPerDbElement = some state ∧
    Delivers ReplyQueue.popReply
      ((List.range state.nbRepliesGenerated).map (repliesArray pirParams final)) count state

/--
The calls that go no further than what has been imported, and if this reaches the last
plaintext of the requested bytes, one more call.
-/
def CallsInRange (params : PublicParameters) (count : ℕ) : Prop :=
  params.plaintexts (bytesPerDbElement * pirParams.alpha) (pirParams.d - 1) < 2 ^ 32 ∧
    (count ≤ params.plaintexts (min bytesPerDbElement (maxFileBytesize - offset) *
        pirParams.alpha) (pirParams.d - 1) ∨
      (params.plaintexts (bytesPerDbElement * pirParams.alpha) 0 - 1) *
          params.absorptionBytesize <
        min bytesPerDbElement (maxFileBytesize - offset) * pirParams.alpha ∧
      count ≤ params.plaintexts (bytesPerDbElement * pirParams.alpha) (pirParams.d - 1) + 1)

instance (params : PublicParameters) (count : ℕ) :
    Decidable (CallsInRange pirParams maxFileBytesize offset bytesPerDbElement params count) :=
  inferInstanceAs (Decidable (_ ∧ _))

section Handing

variable {replies : ℕ → Cipher} {total produced done : ℕ} {state : ReplyQueue Cipher}

/-- The state after some replies have been taken. -/
structure Handing (replies : ℕ → Cipher) (total produced done : ℕ) (state : ReplyQueue Cipher) :
    Prop where
  nbRepliesToHandle : state.nbRepliesToHandle = total - done
  currentReply : state.currentReply = done
  repliesAmount : state.repliesAmount = total
  filled : ∀ k, done ≤ k → k < produced → state.repliesArray k = some (replies k)
  unfilled : ∀ k, produced ≤ k → state.repliesArray k = none

theorem Handing.step (handing : Handing replies total produced done state)
    (inside : done < produced) (produced_le : produced ≤ total) (total_lt : total < 2 ^ 32) :
    ∃ next, state.popReply = some (((List.range total).map replies)[done]?, next) ∧
      Handing replies total produced (done + 1) next := by
  obtain ⟨left, current, amount, filled, unfilled⟩ := handing
  have item_eq : ((List.range total).map replies)[done]? = some (replies done) := by
    rw [List.getElem?_map, List.getElem?_range (by omega), Option.map_some]
  have pops : state.popReply = some (some (replies done),
      { state with
        nbRepliesToHandle := wordSub state.nbRepliesToHandle 1
        repliesArray := Function.update state.repliesArray done none
        currentReply := done + 1 }) := by
    rw [ReplyQueue.popReply, if_neg (by omega), if_pos (by omega), current,
      filled done le_rfl inside, Option.map_some]
  rw [item_eq]
  refine ⟨_, pops, ?_, rfl, amount, ?_, ?_⟩
  · dsimp only
    rw [left, wordSub]
    omega
  · intro k done_lt k_lt
    dsimp only
    rw [Function.update_of_ne (by omega)]
    exact filled k (by omega) k_lt
  · intro k outside
    dsimp only
    rw [Function.update_of_ne (by omega)]
    exact unfilled k outside

/-- After all replies, the counter goes below zero, and wraps around. -/
theorem Handing.ended (handing : Handing replies total produced total state) :
    ∃ next, state.popReply = some (((List.range total).map replies)[total]?, next) ∧
      next.nbRepliesToHandle = 2 ^ 64 - 1 ∧ next.currentReply = next.repliesAmount := by
  obtain ⟨left, current, amount, -, -⟩ := handing
  rw [ReplyQueue.popReply, if_pos (by omega), List.getElem?_eq_none (by simp)]
  refine ⟨_, rfl, ?_, ?_⟩
  · dsimp only
    rw [left, Nat.sub_self]
    decide
  · dsimp only
    rw [current, amount]

/-- A reply that has not been produced is waited for. -/
theorem Handing.waits (handing : Handing replies total produced produced state)
    (fewer : produced < total) : state.popReply = none := by
  obtain ⟨left, current, amount, -, unfilled⟩ := handing
  rw [ReplyQueue.popReply, if_neg (by omega), if_pos (by omega), current,
    unfilled produced le_rfl, Option.map_none]

/-- The calls that deliver the replies, and then report the end: at most one after the end. -/
theorem Handing.delivers_iff (handing : Handing replies total produced 0 state)
    (produced_le : produced ≤ total) (total_lt : total < 2 ^ 32) (count : ℕ) :
    Delivers ReplyQueue.popReply ((List.range total).map replies) count state ↔
      count ≤ produced ∨ produced = total ∧ count ≤ total + 1 := by
  constructor
  · intro delivers
    by_contra beyond
    rcases lt_or_eq_of_le produced_le with fewer | rfl
    · refine not_delivers_of_invariant (Handing replies total produced) handing
        (by omega : produced < count) ?_ ?_ delivers
      · intro done done_lt state handing
        exact handing.step done_lt produced_le total_lt
      · intro state handing next pops
        rw [handing.waits fewer] at pops
        contradiction
    · refine not_delivers_of_invariant (fun done state =>
        if done ≤ produced then Handing replies produced produced done state
        else state.nbRepliesToHandle = 2 ^ 64 - 1 ∧ state.currentReply = state.repliesAmount)
        (by rwa [if_pos (Nat.zero_le _)]) (by omega : produced + 1 < count) ?_ ?_ delivers
      · intro done done_lt state current
        rw [if_pos (by omega)] at current
        rcases Nat.lt_or_ge done produced with inside | outside
        · simp only [if_pos (by omega : done + 1 ≤ produced)]
          exact current.step inside le_rfl total_lt
        · obtain rfl : done = produced := by omega
          simp only [if_neg (by omega : ¬done + 1 ≤ done)]
          exact current.ended
      · intro state current next pops
        rw [if_neg (by omega)] at current
        rw [ReplyQueue.popReply, if_neg (by omega), if_neg (by omega)] at pops
        contradiction
  · intro bounded
    refine delivers_of_invariant
      (fun done state => done ≤ produced → Handing replies total produced done state)
      (fun _ => handing) ?_
    intro done done_lt state current
    rcases Nat.lt_or_ge done produced with inside | outside
    · obtain ⟨next, pops, holds⟩ := (current inside.le).step inside produced_le total_lt
      exact ⟨next, pops, fun _ => holds⟩
    · rcases bounded with few | ⟨rfl, few⟩
      · omega
      · obtain rfl : done = produced := by omega
        obtain ⟨next, pops, -⟩ := (current le_rfl).ended
        exact ⟨next, pops, fun le => absurd le (by omega)⟩

end Handing

variable {crypto pirParams fuel queriesBuf inputData subtract maxFileBytesize offset
  bytesPerDbElement} {params : PublicParameters}

/--
The reply is delivered exactly by the calls up to the first one after its end, if the data
have been read to the last plaintext of the element, and by the calls for what has been read
otherwise.
-/
theorem deliversReplies_iff {final : ReplyState Poly Cipher} (same : crypto.publicParams = params)
    {poly : PolyShape} {absPerCoordinateBitsize : ℕ}
    (sizes : params.HasSizes poly absPerCoordinateBitsize) (file_lt : maxFileBytesize < 2 ^ 64)
    (offset_lt : offset < maxFileBytesize) (bytes_pos : 0 < bytesPerDbElement)
    (generates : importedReply crypto pirParams fuel queriesBuf inputData subtract maxFileBytesize
      offset bytesPerDbElement = some final) (count : ℕ) :
    DeliversReplies crypto pirParams fuel queriesBuf inputData subtract maxFileBytesize offset
        bytesPerDbElement final count ↔
      CallsInRange pirParams maxFileBytesize offset bytesPerDbElement params count := by
  have bounds := sizes.bounds
  have part_eq : fileByteSize maxFileBytesize offset bytesPerDbElement =
      min bytesPerDbElement (maxFileBytesize - offset) := by
    rw [fileByteSize, wordSub]
    congr 1
    omega
  have part_le : min bytesPerDbElement (maxFileBytesize - offset) * pirParams.alpha ≤
      bytesPerDbElement * pirParams.alpha := Nat.mul_le_mul_right _ (Nat.min_le_left _ _)
  have levels_le := bounds.plaintexts_le_plaintexts part_le
  have announced := @SizeBounds.computeReplySizeInChunks_eq_ite _ pirParams bounds
    bytesPerDbElement
  rw [← same] at announced
  rw [DeliversReplies, Libpir.generateReply, announced, same, CallsInRange]
  split
  case isFalse many =>
    refine iff_of_false ?_ (fun both => many both.1)
    rintro ⟨state, absent, -⟩
    contradiction
  case isTrue few =>
    have produced := @producedPolys_eq_plaintexts _ _ _ _ _ same bounds
      maxFileBytesize offset _ few
    rw [part_eq] at produced
    rw [Option.bind_some, generates, Option.bind_some, produced, if_pos (levels_le _),
      and_iff_right few]
    have handing : Handing (repliesArray pirParams final)
        (params.plaintexts (bytesPerDbElement * pirParams.alpha) (pirParams.d - 1))
        (params.plaintexts (min bytesPerDbElement (maxFileBytesize - offset) * pirParams.alpha)
          (pirParams.d - 1)) 0
        { nbRepliesToHandle := params.plaintexts (bytesPerDbElement * pirParams.alpha)
            (pirParams.d - 1)
          nbRepliesGenerated := params.plaintexts (bytesPerDbElement * pirParams.alpha)
            (pirParams.d - 1)
          currentReply := 0
          repliesAmount := params.plaintexts (bytesPerDbElement * pirParams.alpha)
            (pirParams.d - 1)
          repliesArray := fun k =>
            if k < params.plaintexts (min bytesPerDbElement (maxFileBytesize - offset) *
                pirParams.alpha) (pirParams.d - 1) then
              some (repliesArray pirParams final k)
            else none } :=
      ⟨rfl, rfl, rfl, fun k _ inside => if_pos inside, fun k outside => if_neg (by omega)⟩
    have reaches : params.plaintexts (min bytesPerDbElement (maxFileBytesize - offset) *
          pirParams.alpha) (pirParams.d - 1) =
        params.plaintexts (bytesPerDbElement * pirParams.alpha) (pirParams.d - 1) ↔
        (params.plaintexts (bytesPerDbElement * pirParams.alpha) 0 - 1) *
            params.absorptionBytesize <
          min bytesPerDbElement (maxFileBytesize - offset) * pirParams.alpha := by
      have count_pos := bounds.plaintexts_pos (Nat.mul_pos bytes_pos pirParams.alpha_pos) 0
      have first_le := levels_le 0
      rw [bounds.plaintexts_eq_iff, ← not_le (b := _ * _), Nat.mul_comm _ params.absorptionBytesize,
        ← ceilDiv_le_iff_le_mul bounds.absorption_pos, ← plaintexts_zero]
      omega
    rw [← reaches, ← handing.delivers_iff (levels_le _) few]
    constructor
    · rintro ⟨state, state_eq, delivers⟩
      obtain rfl := Option.some.inj state_eq
      exact delivers
    · intro delivers
      exact ⟨_, rfl, delivers⟩

/--
The pop functions deliver each item once and then report the end exactly if queries and
files are only generated when the one before is used up, the numbers of items are not
rounded apart, and after the end of a reply `popReply` is called once at most.
-/
theorem popFunctions_deliver_iff {Coins : Type} (same : crypto.publicParams = params)
    {poly : PolyShape} {absPerCoordinateBitsize : ℕ}
    (sizes : params.HasSizes poly absPerCoordinateBitsize) (pirParams : PIRParameters) :
    (∀ (encrypt : Coins → ℕ → ℕ → Cipher) (coins : ℕ → ℕ → ℕ → Coins) (uninitialised : ℤ)
        (calls : List QueryCall), DeliversQueries encrypt coins uninitialised calls ↔
          QueriesUsedUp encrypt coins uninitialised calls) ∧
      (∀ fuel queriesBuf inputData subtract maxFileBytesize offset bytesPerDbElement final,
        maxFileBytesize < 2 ^ 64 → offset < maxFileBytesize → 0 < bytesPerDbElement →
        importedReply crypto pirParams fuel queriesBuf inputData subtract maxFileBytesize offset
          bytesPerDbElement = some final →
        ∀ count, DeliversReplies crypto pirParams fuel queriesBuf inputData subtract
            maxFileBytesize offset bytesPerDbElement final count ↔
          CallsInRange pirParams maxFileBytesize offset bytesPerDbElement params count) ∧
      ∀ (decrypt : ℕ → (ℕ → UInt8) → ℕ → UInt8) (fuel : ℕ) (calls : List ExtractionCall),
        DeliversFiles params pirParams decrypt fuel calls ↔
          FilesUsedUp params pirParams decrypt fuel calls := by
  refine ⟨fun encrypt coins uninitialised calls => deliversQueries_iff uninitialised calls, ?_,
    fun decrypt fuel calls => deliversFiles_iff sizes.bounds calls⟩
  intro fuel queriesBuf inputData subtract maxFileBytesize offset bytesPerDbElement final file_lt
    offset_lt bytes_pos generates count
  exact deliversReplies_iff same sizes file_lt offset_lt bytes_pos generates count

/-- A library of two elements in one dimension, without aggregation. -/
def twoElements : PIRParameters :=
  ⟨1, 1, fun _ => 2, Nat.one_pos, Nat.one_pos, by decide, by decide⟩

theorem exists_importedReply : ∃ final,
    importedReply sized twoElements 3 (fun _ _ => ()) (fun _ _ => ()) none 1 0 1 = some final :=
  exists_generateReply _ _ _ _ _ (fun _ _ => (by decide : 2 ≤ maxQuerySize))
    (fun _ _ => (by decide : 2 < 3))

/-- Two calls for the reply of an element of one byte. -/
theorem popFunctions_deliver_iff_twice : ∃ final,
    importedReply sized twoElements 3 (fun _ _ => ()) (fun _ _ => ()) none 1 0 1 = some final ∧
      DeliversReplies sized twoElements 3 (fun _ _ => ()) (fun _ _ => ()) none 1 0 1 final 2 := by
  obtain ⟨final, generates⟩ := exists_importedReply
  have delivers := (@popFunctions_deliver_iff _ _ sized _ Unit rfl _ _ sized_hasSizes
    twoElements).2.1 3 (fun _ _ => ()) (fun _ _ => ()) none 1 0 1 final (by decide) (by decide)
    (by decide) generates 2
  exact ⟨final, generates, delivers.mpr (by decide)⟩

/-- The third call does not report the end. -/
theorem not_deliversReplies_three : ∃ final,
    importedReply sized twoElements 3 (fun _ _ => ()) (fun _ _ => ()) none 1 0 1 = some final ∧
      ¬DeliversReplies sized twoElements 3 (fun _ _ => ()) (fun _ _ => ()) none 1 0 1 final 3 := by
  obtain ⟨final, generates⟩ := exists_importedReply
  refine ⟨final, generates, ?_⟩
  rw [deliversReplies_iff rfl sized_hasSizes (by decide) (by decide) (by decide) generates]
  decide

end Replies

end Xpir
