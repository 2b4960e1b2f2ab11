import Mathlib.Algebra.BigOperators.Ring.Finset
import Xpir.NFLLWE.Encryption
import Xpir.Session.CryptoParams

/-!
# Encryption of a list of hashes

`encrypt(data, s_hash, s_list)` puts one hash into each coefficient of a polynomial. The
word of a hash is built byte by byte, from the most significant one on. Its first byte is
used twice: as the first value of the word, and then shifted in again. Each byte is read
through a `char`, which is signed, so that a byte from 128 on sets all the bits above it.

Hashes of up to seven bytes are encoded as their values exactly if their first byte is
null and their other bytes are below 128 (`encodesHashes_iff`).
-/

namespace Xpir

open Finset

/-- A `char` that is converted to 64 bits. -/
def charToWord (byte : UInt8) : ℕ :=
  if byte.toNat < 128 then byte.toNat else 2 ^ 64 - 256 + byte.toNat

section Words

variable (data : ℕ → UInt8)

/-- The body of the loop over the bytes of a hash. -/
def hashStep (sHash j i ui : ℕ) : ℕ :=
  let ui := if i = 0 then charToWord (data (i + j * sHash)) else ui
  ui <<< 8 % 2 ^ 64 ||| charToWord (data (i + j * sHash))

/-- The word of hash `j`, from whatever its variable holds before. -/
def hashWord (sHash j ui : ℕ) : ℕ := forLoop sHash (hashStep data sHash j) ui

/-- The message that is encrypted; the words of the list are not initialised. -/
def hashMessage (polyDegree nbModuli sHash sList : ℕ) (ui : ℕ → ℕ) : ℕ → ℕ :=
  forLoop sList (fun j m => forLoop nbModuli (fun cm m =>
    Function.update m (cm * polyDegree + j) (hashWord data sHash j (ui j))) m) fun _ => 0

/-- The polynomial of a memory that holds its components one after the other. -/
def componentsOf {nbModuli : ℕ} (polyDegree : ℕ) (m : ℕ → ℕ) : NFLlib.Poly nbModuli :=
  fun cm i => m (cm * polyDegree + i)

/-- The message of `NFLLWE::encrypt`. -/
def NFLLWE.hashMessage (lwe : NFLLWE) (sHash sList : ℕ) (ui : ℕ → ℕ) : ℕ → ℕ :=
  Xpir.hashMessage data lwe.nfl.polyDegree lwe.nfl.nbModuli sHash sList ui

def NFLLWE.encrypt (lwe : NFLLWE) (sHash sList : ℕ) (ui rndNoise : ℕ → ℕ)
    (rndUniform : NFLlib.Poly lwe.nfl.nbModuli) :
    NFLlib.Poly lwe.nfl.nbModuli × NFLlib.Poly lwe.nfl.nbModuli :=
  lwe.enc (componentsOf lwe.nfl.polyDegree (lwe.hashMessage data sHash sList ui)) rndNoise
    rndUniform

/-- The message of `NFLFV::encrypt`. -/
def FVobject.hashMessage (fvobject : FVobject) (sHash sList : ℕ) (ui : ℕ → ℕ) : ℕ → ℕ :=
  Xpir.hashMessage data fvobject.polyDegree.toNat fvobject.nbModuli sHash sList ui

/-- The encryption of a polynomial is that of the object FV has been generated for. -/
def FVobject.encrypt {Cipher : Type} (fvobject : FVobject) (enc : (ℕ → ℕ) → Cipher)
    (sHash sList : ℕ) (ui : ℕ → ℕ) : Cipher :=
  enc (fvobject.hashMessage data sHash sList ui)

/-- The value of a hash, of which the first byte is the most significant one. -/
def hashValue (sHash j : ℕ) : ℕ :=
  ∑ i ∈ range sHash, (data (j * sHash + i)).toNat * 256 ^ (sHash - 1 - i)

/-- The coefficients of a message are the values of the hashes, and zeros behind them. -/
def EncodesHashes (polyDegree nbModuli sHash sList : ℕ) (m : ℕ → ℕ) : Prop :=
  ∀ cm < nbModuli, ∀ j < polyDegree,
    m (cm * polyDegree + j) = if j < sList then hashValue data sHash j else 0

/-- The first byte of a hash is null, and the others are not negative. -/
def PlainHash (sHash j : ℕ) : Prop :=
  data (j * sHash) = 0 ∧ ∀ i < sHash, (data (j * sHash + i)).toNat < 128

instance (sHash j : ℕ) : Decidable (PlainHash data sHash j) :=
  inferInstanceAs (Decidable (_ ∧ _))

end Words

/-! ## The word of a hash -/

theorem shiftLeft_or {word byte : ℕ} (byte_lt : byte < 256) :
    word <<< 8 % 2 ^ 64 ||| byte = word * 256 % 2 ^ 64 + byte := by
  have shifted : word <<< 8 % 2 ^ 64 = (word % 2 ^ 56) <<< 8 := by
    rw [Nat.shiftLeft_eq, Nat.shiftLeft_eq]
    omega
  rw [shifted, ← Nat.shiftLeft_add_eq_or_of_lt byte_lt, Nat.shiftLeft_eq]
  omega

/-- A negative byte leaves nothing of the bytes before it. -/
theorem shiftLeft_or_negative (word : ℕ) {byte : ℕ} (byte_lt : byte < 256) :
    word <<< 8 % 2 ^ 64 ||| (2 ^ 64 - 256 + byte) = 2 ^ 64 - 256 + byte := by
  have ones : word % 2 ^ 56 ||| (2 ^ 56 - 1) = 2 ^ 56 - 1 := by
    apply Nat.eq_of_testBit_eq
    intro position
    rw [Nat.testBit_or, Nat.testBit_two_pow_sub_one, Nat.testBit_mod_two_pow]
    by_cases inside : position < 56 <;> simp [inside]
  have shifted : word <<< 8 % 2 ^ 64 = (word % 2 ^ 56) <<< 8 := by
    rw [Nat.shiftLeft_eq, Nat.shiftLeft_eq]
    omega
  have split_byte : 2 ^ 64 - 256 + byte = (2 ^ 56 - 1) <<< 8 ||| byte := by
    rw [← Nat.shiftLeft_add_eq_or_of_lt byte_lt, Nat.shiftLeft_eq]
    omega
  rw [shifted, split_byte, ← Nat.or_assoc, ← Nat.shiftLeft_or_distrib, ones]

section Bytes

variable {data : ℕ → UInt8} {sHash j : ℕ}

/-- What a prefix of a hash is worth. -/
def prefixValue (data : ℕ → UInt8) (sHash j count : ℕ) : ℕ :=
  ∑ i ∈ range count, (data (j * sHash + i)).toNat * 256 ^ (count - 1 - i)

theorem prefixValue_succ (count : ℕ) :
    prefixValue data sHash j (count + 1) =
      256 * prefixValue data sHash j count + (data (j * sHash + count)).toNat := by
  rw [prefixValue, prefixValue, sum_range_succ, mul_sum]
  congr 1
  · apply sum_congr rfl
    intro i i_mem
    have i_lt := mem_range.mp i_mem
    rw [(by omega : count + 1 - 1 - i = count - 1 - i + 1), pow_succ]
    ring
  · rw [Nat.add_sub_cancel, Nat.sub_self, pow_zero, mul_one]

theorem prefixValue_lt (count : ℕ) : prefixValue data sHash j count < 256 ^ count := by
  induction count with
  | zero => simp [prefixValue]
  | succ count ih =>
      have byte_lt := (data (j * sHash + count)).toNat_lt
      rw [prefixValue_succ, pow_succ]
      omega

/--
A prefix of a hash without negative bytes is worth its value, with the first byte before
it once more. A negative byte makes the word negative, also after the bytes behind it.
-/
inductive HashInvariant (data : ℕ → UInt8) (sHash j count word : ℕ) : Prop
  | plain (nonneg : ∀ i < count, (data (j * sHash + i)).toNat < 128)
      (word_eq : word =
        (data (j * sHash)).toNat * 256 ^ count + prefixValue data sHash j count)
  | negative {i : ℕ} (i_lt : i < count) (byte : 128 ≤ (data (j * sHash + i)).toNat)
      (low : word < 2 ^ 64) (high : 2 ^ 64 ≤ word + 128 * 256 ^ (count - 1))

theorem hashStep_of_nonneg {i ui : ℕ} (nonneg : (data (j * sHash + i)).toNat < 128) :
    hashStep data sHash j i ui =
      (if i = 0 then (data (j * sHash + i)).toNat else ui) * 256 % 2 ^ 64 +
        (data (j * sHash + i)).toNat := by
  rw [hashStep, Nat.add_comm i, charToWord, if_pos nonneg]
  exact shiftLeft_or (by omega)

theorem hashStep_of_negative {i ui : ℕ} (negative : 128 ≤ (data (j * sHash + i)).toNat) :
    hashStep data sHash j i ui = 2 ^ 64 - 256 + (data (j * sHash + i)).toNat := by
  have byte_lt := (data (j * sHash + i)).toNat_lt
  rw [hashStep, Nat.add_comm i, charToWord, if_neg (not_lt.mpr negative)]
  exact shiftLeft_or_negative _ (by omega)

/-- The first byte is the first value of the word, and is then shifted in. -/
theorem HashInvariant.first (ui : ℕ) : HashInvariant data sHash j 1 (hashStep data sHash j 0 ui) := by
  have byte_lt := (data (j * sHash)).toNat_lt
  rcases Nat.lt_or_ge (data (j * sHash + 0)).toNat 128 with nonneg | negative
  · refine .plain (fun i i_lt => by rwa [Nat.lt_one_iff.mp i_lt]) ?_
    rw [hashStep_of_nonneg nonneg, if_pos rfl, prefixValue_succ, Nat.add_zero]
    simp only [prefixValue, range_zero, sum_empty]
    omega
  · refine .negative Nat.one_pos negative ?_ ?_
    · rw [hashStep_of_negative negative, Nat.add_zero]
      omega
    · rw [hashStep_of_negative negative]
      omega

theorem HashInvariant.step {count word : ℕ} (few : count < 7) (count_pos : 0 < count)
    (holds : HashInvariant data sHash j count word) :
    HashInvariant data sHash j (count + 1) (hashStep data sHash j count word) := by
  have byte_lt := (data (j * sHash + count)).toNat_lt
  have power_le : 256 ^ count ≤ 256 ^ 6 := Nat.pow_le_pow_right (by decide) (by omega)
  have power_succ : 256 ^ (count - 1) * 256 = 256 ^ count := by
    rw [← pow_succ, Nat.sub_add_cancel count_pos]
  rcases Nat.lt_or_ge (data (j * sHash + count)).toNat 128 with nonneg | negative
  · rw [hashStep_of_nonneg nonneg, if_neg (by omega)]
    cases holds with
    | plain earlier word_eq =>
        refine .plain ?_ ?_
        · intro i i_lt
          rcases Nat.lt_succ_iff_lt_or_eq.mp i_lt with before | rfl
          · exact earlier i before
          · exact nonneg
        · have first_lt := earlier 0 count_pos
          have value_lt := @prefixValue_lt data sHash j count
          have word_lt : word < 2 ^ 56 := by
            rw [word_eq]
            calc (data (j * sHash)).toNat * 256 ^ count + prefixValue data sHash j count
                ≤ 127 * 256 ^ count + 256 ^ count :=
                  Nat.add_le_add (Nat.mul_le_mul_right _ (by simpa using Nat.le_pred_of_lt first_lt))
                    value_lt.le
              _ < 2 ^ 56 := by omega
          rw [Nat.mod_eq_of_lt (by omega), word_eq, prefixValue_succ, pow_succ]
          ring
    | @negative i i_lt byte low high =>
        refine .negative (Nat.lt_succ_of_lt i_lt) byte ?_ ?_
        · omega
        · rw [Nat.add_sub_cancel]
          omega
  · rw [hashStep_of_negative negative]
    refine .negative (Nat.lt_succ_self count) negative ?_ ?_
    · omega
    · rw [Nat.add_sub_cancel]
      have power_pos : 0 < 256 ^ count := by positivity
      omega

theorem hashInvariant_hashWord (ui : ℕ) {count : ℕ} (count_pos : 0 < count) (few : count ≤ 7) :
    HashInvariant data sHash j count (forLoop count (hashStep data sHash j) ui) := by
  induction count, count_pos using Nat.le_induction with
  | base => exact .first ui
  | succ count count_pos ih =>
      rw [forLoop_succ]
      exact (ih (by omega)).step (by omega) count_pos

/-- The word of a hash is its value exactly if no byte spoils it. -/
theorem hashWord_eq_iff (ui : ℕ) (sHash_pos : 0 < sHash) (sHash_le : sHash ≤ 7) :
    hashWord data sHash j ui = hashValue data sHash j ↔ PlainHash data sHash j := by
  have value_eq : hashValue data sHash j = prefixValue data sHash j sHash := rfl
  have value_lt := @prefixValue_lt data sHash j sHash
  have value_le : 256 ^ sHash ≤ 256 ^ 7 := Nat.pow_le_pow_right (by decide) sHash_le
  have power_pos : 0 < 256 ^ sHash := by positivity
  rw [hashWord, value_eq]
  cases @hashInvariant_hashWord data sHash j ui _ sHash_pos sHash_le with
  | plain nonneg word_eq =>
      rw [word_eq, Nat.add_eq_right, Nat.mul_eq_zero, or_iff_left power_pos.ne', PlainHash,
        and_iff_left nonneg, ← UInt8.toNat_inj]
      rfl
  | @negative i i_lt byte low high =>
      refine iff_of_false ?_ ?_
      · have power_le : 256 ^ (sHash - 1) ≤ 256 ^ 6 :=
          Nat.pow_le_pow_right (by decide) (by omega)
        omega
      · intro plain
        exact absurd (plain.2 i i_lt) (not_lt.mpr byte)

end Bytes

/-! ## The message -/

section Message

variable (data : ℕ → UInt8) {polyDegree nbModuli sHash sList : ℕ}

/-- Each word is written to its coefficient in all components. -/
theorem forLoop_coefficients_apply (word : ℕ → ℕ) {count : ℕ} (count_le : count ≤ polyDegree)
    {cm j : ℕ} (cm_lt : cm < nbModuli) (j_lt : j < polyDegree) :
    forLoop count (fun j m => forLoop nbModuli (fun cm m =>
      Function.update m (cm * polyDegree + j) (word j)) m) (fun _ => 0) (cm * polyDegree + j) =
      if j < count then word j else 0 := by
  have run := forLoop_induction count
    (fun j m => forLoop nbModuli (fun cm m =>
      Function.update m (cm * polyDegree + j) (word j)) m) (fun _ => 0)
    (fun count m => ∀ cm < nbModuli, ∀ j < polyDegree, m (cm * polyDegree + j) =
      if j < count then word j else 0)
    (fun cm _ j _ => by simp)
    (by
      intro count m count_lt holds cm cm_lt j j_lt
      have degree_pos : 0 < polyDegree := by omega
      have injective : Function.Injective fun cm => cm * polyDegree + count := by
        intro left right same
        exact Nat.eq_of_mul_eq_mul_right degree_pos (Nat.add_right_cancel same)
      by_cases here : j = count
      · subst here
        rw [if_pos (Nat.lt_succ_self j)]
        exact forLoop_update_cell injective.injOn (fun _ _ => word j) m cm_lt
      · rw [forLoop_update_of_ne (fun _ _ => word count), holds cm cm_lt j j_lt]
        · exact if_congr (by omega) rfl rfl
        · intro other _ same
          have remainders := congrArg (· % polyDegree) same
          simp only [Nat.mul_add_mod_self_right, Nat.mod_eq_of_lt j_lt] at remainders
          rw [Nat.mod_eq_of_lt (by omega)] at remainders
          exact here remainders)
  exact run cm cm_lt j j_lt

theorem hashMessage_apply (ui : ℕ → ℕ) (sList_le : sList ≤ polyDegree) {cm j : ℕ}
    (cm_lt : cm < nbModuli) (j_lt : j < polyDegree) :
    hashMessage data polyDegree nbModuli sHash sList ui (cm * polyDegree + j) =
      if j < sList then hashWord data sHash j (ui j) else 0 :=
  forLoop_coefficients_apply (fun j => hashWord data sHash j (ui j)) sList_le cm_lt j_lt

theorem encodesHashes_hashMessage_iff (ui : ℕ → ℕ) (nbModuli_pos : 0 < nbModuli)
    (sHash_pos : 0 < sHash) (sHash_le : sHash ≤ 7) (sList_le : sList ≤ polyDegree) :
    EncodesHashes data polyDegree nbModuli sHash sList
        (hashMessage data polyDegree nbModuli sHash sList ui) ↔
      ∀ j < sList, PlainHash data sHash j := by
  constructor
  · intro encodes j j_lt
    have coefficient := encodes 0 nbModuli_pos j (by omega)
    rw [hashMessage_apply data ui sList_le nbModuli_pos (by omega), if_pos j_lt,
      if_pos j_lt] at coefficient
    exact (hashWord_eq_iff (ui j) sHash_pos sHash_le).mp coefficient
  · intro plain cm cm_lt j j_lt
    rw [hashMessage_apply data ui sList_le cm_lt j_lt]
    split
    next inside => exact (hashWord_eq_iff (ui j) sHash_pos sHash_le).mpr (plain j inside)
    next => rfl

/--
Both classes encode a list of hashes of one to seven bytes exactly if the first byte of
each hash is null and none of its bytes is negative as a `char`.
-/
theorem encodesHashes_iff (ui : ℕ → ℕ) (sHash_pos : 0 < sHash) (sHash_le : sHash ≤ 7) :
    (∀ lwe : NFLLWE, 0 < lwe.nfl.nbModuli → sList ≤ lwe.nfl.polyDegree →
      (EncodesHashes data lwe.nfl.polyDegree lwe.nfl.nbModuli sHash sList
          (lwe.hashMessage data sHash sList ui) ↔ ∀ j < sList, PlainHash data sHash j)) ∧
    ∀ fvobject : FVobject, sList ≤ fvobject.polyDegree.toNat →
      (EncodesHashes data fvobject.polyDegree.toNat fvobject.nbModuli sHash sList
          (fvobject.hashMessage data sHash sList ui) ↔ ∀ j < sList, PlainHash data sHash j) := by
  constructor
  · intro lwe nbModuli_pos sList_le
    exact encodesHashes_hashMessage_iff data ui nbModuli_pos sHash_pos sHash_le sList_le
  · intro fvobject sList_le
    refine encodesHashes_hashMessage_iff data ui ?_ sHash_pos sHash_le sList_le
    cases fvobject <;> decide

end Message

/-- Three hashes of two bytes, all below 128. -/
theorem encodesHashes_iff_three :
    EncodesHashes (fun index => if index % 2 = 0 then 0 else 65) 1024 1 2 3
      (FVobject.FV1024_62.hashMessage (fun index => if index % 2 = 0 then 0 else 65) 2 3
        fun _ => 0) :=
  ((encodesHashes_iff (fun index => if index % 2 = 0 then 0 else 65) (fun _ => 0)
    (by decide) (by decide)).2 .FV1024_62 (by decide)).mpr (by decide)

/-- The word of the hash that is the single byte 1 is 257. -/
theorem not_encodesHashes_one :
    ¬ EncodesHashes (fun _ => 1) 1024 1 1 1
      (FVobject.FV1024_62.hashMessage (fun _ => 1) 1 1 fun _ => 0) := by
  intro encodes
  have coefficient := encodes 0 (by decide) 0 (by decide)
  revert coefficient
  decide

end Xpir
