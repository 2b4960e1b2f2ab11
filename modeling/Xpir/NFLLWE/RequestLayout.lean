import Xpir.NFLLWE.HashList
import Xpir.NFLlib.Bitsplitter

/-!
# The layout of a request

The client encrypts the element that is to be subtracted from a reply with `encryptsub`, one
byte to a coefficient, while the server imports an element with as many bits to a coefficient
as are absorbed. Besides, `encryptsub` always ends with a polynomial that is not full, if need
be with an empty one.

For LWE the two layouts are the same exactly for absorptions of eight bits and lengths that
are no multiples of the degree, up to the limits of the counters, and for the single byte
(`requestsAlike_iff`). The function of FV takes its polynomials from a function without a
return statement.
-/

namespace Xpir

open Finset

section Requests

variable (data : ℕ → UInt8)

/-- The word of a coefficient, whose bytes are taken from the last one on. -/
def requestWord (sCoef offset : ℕ) : ℕ :=
  forLoop sCoef (fun k ui =>
    let i := sCoef - 1 - k
    if i = sCoef - 1 then (data (i + offset)).toNat
    else ui <<< 8 % 2 ^ 64 ||| (data (i + offset)).toNat) 0

namespace PolyShape

variable (poly : PolyShape)

/-- The message of ciphertext `l`. -/
def requestMessage (sCoef nbCoef l : ℕ) : ℕ → ℕ :=
  forLoop (min poly.polyDegree (nbCoef - l * poly.polyDegree)) (fun j m =>
    forLoop poly.nbModuli (fun cm m => Function.update m (cm * poly.polyDegree + j)
      (requestWord data sCoef (j * sCoef + l * sCoef * poly.polyDegree))) m) fun _ => 0

/-- The number of ciphertexts is an `unsigned int`, and the loop over them counts with an `int`. -/
def encryptsub {Cipher : Type} (enc : (ℕ → ℕ) → Cipher) (sCoef : ℕ) (nbCoef : UInt32) :
    Option (List Cipher) :=
  let ciphertexts := (1 + nbCoef.toNat / poly.polyDegree) % 2 ^ 32
  if ciphertexts < 2 ^ 31 then
    some ((List.range ciphertexts).map fun l => enc (poly.requestMessage data sCoef nbCoef.toNat l))
  else none

end PolyShape

end Requests

/-- The buffer that an element is imported from. -/
def elementShape (length bitsPerCoordinate : ℕ)
    (fits : 0 < bitsPerCoordinate ∧ 8 * length < 2 ^ 64) : SplitShape where
  nbrOfBuffers := 1
  bytesPerBuffer := length
  bitsPerChunk := bitsPerCoordinate
  chunk_pos := fits.1
  wide := Or.inl rfl
  bits_lt := fits.2

namespace PolyShape

variable (poly : PolyShape)

/-- The polynomials of an element before their transformation, and how many there are. -/
def deserializeElement (fuel absorptionBitsize length : ℕ) (memory : ℤ → UInt8) :
    Option ((ℕ → ℕ) × ℕ) :=
  if fits : 0 < absorptionBitsize / poly.polyDegree ∧ 8 * length < 2 ^ 64 then
    (poly.bitsplitter (elementShape length _ fits) fuel fun _ => memory).map fun deserData =>
      (deserData, poly.polyNumber (elementShape length _ fits))
  else none

/-- A request encrypts the polynomials of the element. -/
def Alike (p : ℕ → ℕ) (request : ℕ → Option (List (ℕ → ℕ)))
    (element : ℕ → Option ((ℕ → ℕ) × ℕ)) : Prop :=
  ∃ fuel messages deserData, request fuel = some messages ∧
    element fuel = some (deserData, messages.length) ∧
    ∀ l, ∀ inside : l < messages.length, ∀ j < poly.polyDegree, ∀ cm < poly.nbModuli,
      messages[l] (cm * poly.polyDegree + j) ≡
        deserData (poly.cell (l * poly.polyDegree + j) cm) [MOD p cm]

/-- The call that the client makes for an element, for all its contents. -/
def RequestsAlike (absorptionBitsize length : ℕ) : Prop :=
  ∀ memory : ℤ → UInt8, poly.Alike moduli
    (fun _ => poly.encryptsub (fun k => memory k) id 1 (UInt32.ofNat length))
    (fun fuel => poly.deserializeElement fuel absorptionBitsize length memory)

/-- The condition on the sizes. -/
def LaidOutAlike (absorptionBitsize length : ℕ) : Prop :=
  length < 2 ^ 32 ∧ ¬ poly.polyDegree ∣ length ∧ length / poly.polyDegree + 1 < 2 ^ 31 ∧
    (absorptionBitsize / poly.polyDegree = 8 ∧ (poly.nbModuli = 1 ∨
        length / poly.polyDegree * (poly.polyDegree * poly.nbModuli) < 2 ^ 32) ∨
      length = 1 ∧ 8 < absorptionBitsize / poly.polyDegree)

instance (absorptionBitsize length : ℕ) : Decidable (poly.LaidOutAlike absorptionBitsize length) :=
  inferInstanceAs (Decidable (_ ∧ _))

end PolyShape

namespace NFLFV

variable (poly : PolyShape) (returned : (ℕ → ℕ) → Option (ℕ → ℕ))

/--
`deserializeData` of each of the FV objects calls the import without the transformation,
and does not return what it gets. What reaches the caller is `returned`.
-/
def deserializeData (fuel absorptionBitsize dataBitsizePerBuffer : ℕ) (memory : ℤ → UInt8) :
    Option ((ℕ → ℕ) × ℕ) :=
  (poly.deserializeElement fuel absorptionBitsize (dataBitsizePerBuffer / 8) memory).bind
    fun (deserData, polyNumber) => (returned deserData).map fun test => (test, polyNumber)

/-- The size in bits is computed with 32 bits. -/
def encryptsub {Cipher : Type} (encNTT : (ℕ → ℕ) → Cipher) (fuel absorptionBitsize : ℕ)
    (memory : ℤ → UInt8) (nbCoef : UInt32) : Option (List Cipher) :=
  (deserializeData poly returned fuel absorptionBitsize (nbCoef * 8).toNat memory).map
    fun (test, test2) => (List.range test2).map fun i =>
      encNTT fun index => test (i * (poly.nbModuli * poly.polyDegree) + index)

/-- The call that the client makes, whatever a function without a return statement returns. -/
def RequestsAlike (p : ℕ → ℕ) (absorptionBitsize length : ℕ) : Prop :=
  ∀ returned : (ℕ → ℕ) → Option (ℕ → ℕ), ∀ memory : ℤ → UInt8, poly.Alike p
    (fun fuel => encryptsub poly returned id fuel absorptionBitsize memory (UInt32.ofNat length))
    (fun fuel => poly.deserializeElement fuel absorptionBitsize length memory)

theorem not_requestsAlike (p : ℕ → ℕ) (absorptionBitsize length : ℕ) :
    ¬ RequestsAlike poly p absorptionBitsize length := by
  intro alike
  rcases alike (fun _ => none) (fun _ => 0) with ⟨fuel, messages, deserData, yields, _, _⟩
  rcases Option.map_eq_some_iff.mp yields with ⟨_, found, _⟩
  rcases Option.bind_eq_some_iff.mp found with ⟨_, _, nothing⟩
  exact absurd nothing (by simp)

end NFLFV

namespace PolyShape

variable (poly : PolyShape)

section Messages

variable {poly} (data : ℕ → UInt8)

theorem requestWord_one (offset : ℕ) : requestWord data 1 offset = (data offset).toNat := by
  rw [requestWord, forLoop_succ, forLoop_zero]
  simp

/-- The coefficients are the bytes, and zeros behind them. -/
theorem requestMessage_apply (nbCoef l : ℕ) {cm j : ℕ} (cm_lt : cm < poly.nbModuli)
    (j_lt : j < poly.polyDegree) :
    poly.requestMessage data 1 nbCoef l (cm * poly.polyDegree + j) =
      if l * poly.polyDegree + j < nbCoef then (data (l * poly.polyDegree + j)).toNat else 0 := by
  rw [requestMessage, forLoop_coefficients_apply _ (Nat.min_le_left _ _) cm_lt j_lt]
  simp only [requestWord_one, Nat.mul_one]
  rw [Nat.add_comm j]
  exact if_congr (by omega) rfl rfl

/-- The number of ciphertexts. -/
def requestCount (poly : PolyShape) (nbCoef : UInt32) : ℕ :=
  (1 + nbCoef.toNat / poly.polyDegree) % 2 ^ 32

theorem encryptsub_eq_some {nbCoef : UInt32} {messages : List (ℕ → ℕ)} :
    poly.encryptsub data id 1 nbCoef = some messages ↔ poly.requestCount nbCoef < 2 ^ 31 ∧
      messages = (List.range (poly.requestCount nbCoef)).map fun l =>
        poly.requestMessage data 1 nbCoef.toNat l := by
  rw [encryptsub, requestCount]
  simp only [Option.ite_none_right_eq_some, Option.some.injEq, id]
  exact and_congr_right fun _ => eq_comm

end Messages

section Elements

variable {poly} {length bitsPerCoordinate : ℕ}
  (fits : 0 < bitsPerCoordinate ∧ 8 * length < 2 ^ 64) (memory : ℤ → UInt8)

theorem bits_elementShape :
    (elementShape length bitsPerCoordinate fits).bits (fun _ => memory) =
      littleEndian (fun k => memory k) length := by
  rw [SplitShape.bits, elementShape, Nat.one_mul, littleEndian, littleEndian]
  apply concatenate_congr
  intro k k_lt
  rw [Nat.mod_eq_of_lt k_lt]

theorem totalBits_elementShape :
    totalBits (elementShape length bitsPerCoordinate fits) = 8 * length :=
  Nat.one_mul _

theorem deserializeElement_eq_some {fuel absorptionBitsize number : ℕ} {deserData : ℕ → ℕ} :
    poly.deserializeElement fuel absorptionBitsize length memory = some (deserData, number) ↔
      ∃ fits, poly.bitsplitter (elementShape length (absorptionBitsize / poly.polyDegree) fits)
          fuel (fun _ => memory) = some deserData ∧
        poly.polyNumber (elementShape length _ fits) = number := by
  rw [deserializeElement]
  split
  next fits =>
    rw [Option.map_eq_some_iff, exists_prop_of_true fits]
    simp only [Prod.mk.injEq]
    constructor
    · rintro ⟨found, runs, rfl, counts⟩
      exact ⟨runs, counts⟩
    · rintro ⟨runs, counts⟩
      exact ⟨_, runs, rfl, counts⟩
  next unfit =>
    constructor
    · intro nothing
      exact absurd nothing (by simp)
    · rintro ⟨fits, _⟩
      exact absurd fits unfit

end Elements

section Agreement

variable {poly} {absorptionBitsize length : ℕ} {memory : ℤ → UInt8}

/-- The coefficients of both layouts are compared with the bytes one by one. -/
theorem alike_iff (memory : ℤ → UInt8) :
    poly.Alike moduli (fun _ => poly.encryptsub (fun k => memory k) id 1 (UInt32.ofNat length))
        (fun fuel => poly.deserializeElement fuel absorptionBitsize length memory) ↔
      poly.requestCount (UInt32.ofNat length) < 2 ^ 31 ∧ ∃ fits fuel outdata,
        poly.polyNumber (elementShape length (absorptionBitsize / poly.polyDegree) fits) =
          poly.requestCount (UInt32.ofNat length) ∧
        poly.bitsplitter (elementShape length _ fits) fuel (fun _ => memory) = some outdata ∧
        ∀ k < poly.requestCount (UInt32.ofNat length) * poly.polyDegree, ∀ cm < poly.nbModuli,
          (if k < (UInt32.ofNat length).toNat then (memory k).toNat else 0) ≡
            outdata (poly.cell k cm) [MOD moduli cm] := by
  have degree_pos := poly.polyDegree_pos
  constructor
  · rintro ⟨fuel, messages, deserData, yields, element, same⟩
    rcases (encryptsub_eq_some _).mp yields with ⟨count_lt, rfl⟩
    rcases (deserializeElement_eq_some _).mp element with ⟨fits, runs, number⟩
    rw [List.length_map, List.length_range] at number
    refine ⟨count_lt, fits, fuel, deserData, number, runs, ?_⟩
    intro k k_lt cm cm_lt
    have row_lt := (Nat.div_lt_iff_lt_mul degree_pos).mpr k_lt
    have value := same (k / poly.polyDegree) (by rwa [List.length_map, List.length_range])
      (k % poly.polyDegree) (Nat.mod_lt _ degree_pos) cm cm_lt
    rw [List.getElem_map, List.getElem_range,
      requestMessage_apply _ _ _ cm_lt (Nat.mod_lt _ degree_pos), Nat.div_add_mod'] at value
    exact value
  · rintro ⟨count_lt, fits, fuel, outdata, number, runs, same⟩
    refine ⟨fuel, _, outdata, (encryptsub_eq_some _).mpr ⟨count_lt, rfl⟩,
      (deserializeElement_eq_some _).mpr ⟨fits, runs, ?_⟩, ?_⟩
    · rw [List.length_map, List.length_range, number]
    · intro l inside j j_lt cm cm_lt
      rw [List.length_map, List.length_range] at inside
      rw [List.getElem_map, List.getElem_range, requestMessage_apply _ _ _ cm_lt j_lt]
      apply same _ _ cm cm_lt
      calc l * poly.polyDegree + j
          < (l + 1) * poly.polyDegree := by rw [Nat.succ_mul]; omega
        _ ≤ _ := Nat.mul_le_mul_right _ inside

theorem alike_of_chunks (count_lt : poly.requestCount (UInt32.ofNat length) < 2 ^ 31)
    (fits : 0 < absorptionBitsize / poly.polyDegree ∧ 8 * length < 2 ^ 64)
    (number : poly.polyNumber (elementShape length _ fits) =
      poly.requestCount (UInt32.ofNat length))
    (exact : poly.SplitsExactly (elementShape length _ fits) fun _ => memory)
    (chunks : ∀ k, chunk (elementShape length _ fits) (fun _ => memory) k =
      if k < (UInt32.ofNat length).toNat then (memory k).toNat else 0) :
    poly.Alike moduli (fun _ => poly.encryptsub (fun k => memory k) id 1 (UInt32.ofNat length))
      (fun fuel => poly.deserializeElement fuel absorptionBitsize length memory) := by
  rcases exact with ⟨fuel, outdata, runs, holds⟩
  refine (alike_iff memory).mpr ⟨count_lt, fits, fuel, outdata, number, runs, ?_⟩
  intro k k_lt cm cm_lt
  rw [← chunks]
  exact (holds.modEq (by rwa [number]) cm_lt).symm

theorem requestCount_eq (fits : length < 2 ^ 32) (count_lt : length / poly.polyDegree + 1 < 2 ^ 31) :
    poly.requestCount (UInt32.ofNat length) = length / poly.polyDegree + 1 := by
  rw [requestCount, UInt32.toNat_ofNat', Nat.mod_eq_of_lt fits, Nat.mod_eq_of_lt (by omega),
    Nat.add_comm]

theorem polyNumber_elementShape_le_iff {bitsPerCoordinate : ℕ}
    (fits : 0 < bitsPerCoordinate ∧ 8 * length < 2 ^ 64) (count : ℕ) :
    poly.polyNumber (elementShape length bitsPerCoordinate fits) ≤ count ↔
      8 * length ≤ count * poly.polyDegree * bitsPerCoordinate := by
  rw [polyNumber_le_iff, totalBits_elementShape]
  rfl

theorem chunk_of_eight {bitsPerCoordinate : ℕ}
    (fits : 0 < bitsPerCoordinate ∧ 8 * length < 2 ^ 64) (eight : bitsPerCoordinate = 8) (k : ℕ) :
    chunk (elementShape length bitsPerCoordinate fits) (fun _ => memory) k =
      if k < length then (memory k).toNat else 0 := by
  subst eight
  rw [chunk, bits_elementShape]
  exact (congrArg (bitSlice _ · 8) (Nat.mul_comm k 8)).trans (bitSlice_littleEndian _ _ _)

/-- A single byte is the first of the chunks that are longer. -/
theorem chunk_of_one {bitsPerCoordinate : ℕ}
    (fits : 0 < bitsPerCoordinate ∧ 8 * length < 2 ^ 64) (one : length = 1)
    (long : 8 ≤ bitsPerCoordinate) (k : ℕ) :
    chunk (elementShape length bitsPerCoordinate fits) (fun _ => memory) k =
      if k < length then (memory k).toNat else 0 := by
  subst one
  have byte_lt := (memory 0).toNat_lt
  have bits_eq : (elementShape 1 bitsPerCoordinate fits).bits (fun _ => memory) =
      (memory 0).toNat := by
    rw [bits_elementShape]
    simp [littleEndian, concatenate]
  rcases Nat.eq_zero_or_pos k with rfl | k_pos
  · rw [if_pos Nat.one_pos, chunk, bits_eq, bitSlice, Nat.zero_mul, pow_zero, Nat.div_one,
      Nat.mod_eq_of_lt]
    · rfl
    · exact byte_lt.trans_le (Nat.pow_le_pow_right (by decide) long)
  · rw [if_neg (by omega), chunk_eq_zero]
    rw [totalBits_elementShape]
    exact long.trans (Nat.le_mul_of_pos_left _ k_pos)

end Agreement

section Sufficiency

variable {poly} {absorptionBitsize length : ℕ}

theorem intUint64PerChunk_elementShape {bitsPerCoordinate : ℕ}
    (fits : 0 < bitsPerCoordinate ∧ 8 * length < 2 ^ 64) :
    1 < (elementShape length bitsPerCoordinate fits).intUint64PerChunk ↔
      56 < bitsPerCoordinate := by
  change 1 < (bitsPerCoordinate + 56 - 1) / 56 ↔ _
  omega

theorem polyNumber_of_eight {bitsPerCoordinate : ℕ}
    (fits : 0 < bitsPerCoordinate ∧ 8 * length < 2 ^ 64) (eight : bitsPerCoordinate = 8)
    (ragged : ¬ poly.polyDegree ∣ length) :
    poly.polyNumber (elementShape length bitsPerCoordinate fits) =
      length / poly.polyDegree + 1 := by
  have split_length := Nat.div_add_mod' length poly.polyDegree
  have part_lt := Nat.mod_lt length poly.polyDegree_pos
  apply le_antisymm
  · rw [polyNumber_elementShape_le_iff, eight, Nat.succ_mul (length / poly.polyDegree)]
    omega
  · rw [Nat.succ_le_iff, ← not_le, polyNumber_elementShape_le_iff, eight]
    intro enough
    apply ragged
    apply Nat.dvd_of_mod_eq_zero
    omega

theorem requestsAlike_of_eight (length_lt : length < 2 ^ 32) (ragged : ¬ poly.polyDegree ∣ length)
    (count_lt : length / poly.polyDegree + 1 < 2 ^ 31)
    (eight : absorptionBitsize / poly.polyDegree = 8)
    (offsets : poly.nbModuli = 1 ∨
      length / poly.polyDegree * (poly.polyDegree * poly.nbModuli) < 2 ^ 32) :
    poly.RequestsAlike absorptionBitsize length := by
  have fits : 0 < absorptionBitsize / poly.polyDegree ∧ 8 * length < 2 ^ 64 := by omega
  have count_eq := requestCount_eq length_lt count_lt
  have number : poly.polyNumber (elementShape length _ fits) = length / poly.polyDegree + 1 :=
    polyNumber_of_eight fits eight ragged
  have counters : poly.CountersFit (elementShape length _ fits) := by
    rw [CountersFit, if_neg, number, Nat.add_sub_cancel]
    · exact offsets
    · rw [intUint64PerChunk_elementShape]
      omega
  intro memory
  apply alike_of_chunks (by rwa [count_eq]) fits (number.trans count_eq.symm)
  · exact splitsExactly_of_countersFit (eight.trans_le (by decide)) counters _
  · intro k
    rw [UInt32.toNat_ofNat', Nat.mod_eq_of_lt length_lt]
    exact chunk_of_eight fits eight k

theorem requestsAlike_of_one (one : length = 1) (ragged : ¬ poly.polyDegree ∣ length)
    (long : 8 < absorptionBitsize / poly.polyDegree) :
    poly.RequestsAlike absorptionBitsize length := by
  subst one
  have fits : 0 < absorptionBitsize / poly.polyDegree ∧ 8 * 1 < 2 ^ 64 := by omega
  have degree_gt : 1 < poly.polyDegree :=
    Nat.lt_of_le_of_ne poly.polyDegree_pos fun single => ragged (single ▸ Nat.one_dvd 1)
  have count_eq : poly.requestCount (UInt32.ofNat 1) = 1 := by
    rw [requestCount_eq (by decide) (by rw [Nat.div_eq_of_lt degree_gt]; decide),
      Nat.div_eq_of_lt degree_gt]
  have number : poly.polyNumber (elementShape 1 _ fits) = 1 := by
    apply le_antisymm
    · rw [polyNumber_elementShape_le_iff, Nat.one_mul]
      exact long.le.trans (Nat.le_mul_of_pos_left _ poly.polyDegree_pos)
    · rw [Nat.one_le_iff_ne_zero, ← Nat.pos_iff_ne_zero, ← not_le, polyNumber_elementShape_le_iff]
      simp
  have counters : poly.CountersFit (elementShape 1 _ fits) := by
    rw [CountersFit]
    split
    next =>
      have total_le : totalNbChunks (elementShape 1 _ fits) ≤ 1 := by
        rw [totalNbChunks_le_iff, totalBits_elementShape, Nat.one_mul]
        exact long.le
      omega
    next =>
      rw [number, Nat.sub_self, Nat.zero_mul]
      exact Or.inr (by decide)
  intro memory
  have bits_lt : (elementShape 1 _ fits).bits (fun _ => memory) < 2 ^ 8 := by
    rw [bits_elementShape]
    exact littleEndian_lt _ 1
  apply alike_of_chunks (by rw [count_eq]; decide) fits (number.trans count_eq.symm)
  · apply splitsExactly_of_sums counters
    intro several k cm _
    rw [crtSum_of_bits_lt several (bits_lt.trans (by decide))]
    split
    · exact (Nat.mod_le _ _).trans_lt (bits_lt.trans (by decide))
    · exact Nat.two_pow_pos 64
  · exact chunk_of_one fits rfl long.le

theorem requestsAlike_of_laidOutAlike (sizes : poly.LaidOutAlike absorptionBitsize length) :
    poly.RequestsAlike absorptionBitsize length := by
  rcases sizes with ⟨length_lt, ragged, count_lt, ⟨eight, offsets⟩ | ⟨one, long⟩⟩
  · exact requestsAlike_of_eight length_lt ragged count_lt eight offsets
  · exact requestsAlike_of_one one ragged long

end Sufficiency

section Necessity

variable {poly} {absorptionBitsize length : ℕ}

/-- Values of eight bits are told apart modulo every prime. -/
theorem eq_of_modEq {x y cm : ℕ} (cm_lt : cm < poly.nbModuli) (x_le : x ≤ 256) (y_le : y ≤ 256)
    (same : x ≡ y [MOD moduli cm]) : x = y := by
  have inTable := cm_lt.trans_le poly.nbModuli_le
  have bound := NFLlib.P64_gt ⟨cm, inTable⟩
  rw [moduli, dif_pos inTable] at same
  exact same.eq_of_lt_of_lt (by omega) (by omega)

/-- The element is not empty, and the number of ciphertexts does not wrap around. -/
theorem requestCount_of_polyNumber {bitsPerCoordinate : ℕ}
    {fits : 0 < bitsPerCoordinate ∧ 8 * length < 2 ^ 64}
    (number : poly.polyNumber (elementShape length bitsPerCoordinate fits) =
      poly.requestCount (UInt32.ofNat length)) :
    0 < length ∧
      poly.requestCount (UInt32.ofNat length) = length % 2 ^ 32 / poly.polyDegree + 1 := by
  have enough := (polyNumber_elementShape_le_iff fits _).mp number.le
  have value_eq : (UInt32.ofNat length).toNat = length % 2 ^ 32 := UInt32.toNat_ofNat'
  have quotient_le := Nat.div_le_self (length % 2 ^ 32) poly.polyDegree
  have empty : length = 0 → poly.requestCount (UInt32.ofNat length) = 0 := by
    intro zero
    rw [← number, ← Nat.le_zero, polyNumber_elementShape_le_iff, zero]
    exact Nat.zero_le _
  rw [requestCount, value_eq] at enough empty ⊢
  have positive : (1 + length % 2 ^ 32 / poly.polyDegree) % 2 ^ 32 ≠ 0 := by
    intro wraps
    rw [wraps, Nat.zero_mul, Nat.zero_mul] at enough
    have zero : length = 0 := by omega
    rw [zero, Nat.zero_mod, Nat.zero_div] at wraps
    exact absurd wraps (by decide)
  constructor
  · exact Nat.pos_of_ne_zero fun zero => positive (empty zero)
  · generalize length % 2 ^ 32 / poly.polyDegree = quotient at *
    omega

/-- Eight bits for each byte leave no room for a length that is cut. -/
theorem length_lt_of_polyNumber {bitsPerCoordinate : ℕ}
    {fits : 0 < bitsPerCoordinate ∧ 8 * length < 2 ^ 64} (short : bitsPerCoordinate ≤ 8)
    (number : poly.polyNumber (elementShape length bitsPerCoordinate fits) =
      poly.requestCount (UInt32.ofNat length)) :
    length < 2 ^ 32 := by
  have enough := (polyNumber_elementShape_le_iff fits _).mp number.le
  have degree_le := poly.polyDegree_le
  rw [NFLlib.kMaxPolyDegree] at degree_le
  rw [(requestCount_of_polyNumber number).2] at enough
  have room := enough.trans (Nat.mul_le_mul_left _ short)
  have whole := Nat.div_mul_le_self (length % 2 ^ 32) poly.polyDegree
  rw [Nat.succ_mul (length % 2 ^ 32 / poly.polyDegree)] at room
  omega

theorem RequestsAlike.agreement (alike : poly.RequestsAlike absorptionBitsize length)
    (memory : ℤ → UInt8) :
    ∃ fits fuel outdata, poly.requestCount (UInt32.ofNat length) < 2 ^ 31 ∧
      poly.polyNumber (elementShape length (absorptionBitsize / poly.polyDegree) fits) =
        poly.requestCount (UInt32.ofNat length) ∧
      poly.bitsplitter (elementShape length _ fits) fuel (fun _ => memory) = some outdata ∧
      ∀ k < poly.requestCount (UInt32.ofNat length) * poly.polyDegree, ∀ cm < poly.nbModuli,
        (if k < length % 2 ^ 32 then (memory k).toNat else 0) ≡
          outdata (poly.cell k cm) [MOD moduli cm] := by
  rcases (alike_iff memory).mp (alike memory)
    with ⟨count_lt, fits, fuel, outdata, number, runs, same⟩
  rw [UInt32.toNat_ofNat'] at same
  exact ⟨fits, fuel, outdata, count_lt, number, runs, same⟩

/-- The value of the byte 128 does not fit in seven bits. -/
theorem RequestsAlike.eight_le (alike : poly.RequestsAlike absorptionBitsize length) :
    8 ≤ absorptionBitsize / poly.polyDegree := by
  by_contra few
  rcases alike.agreement fun _ => 128 with ⟨fits, fuel, outdata, _, number, runs, same⟩
  rcases requestCount_of_polyNumber number with ⟨length_pos, count_eq⟩
  have length_lt := length_lt_of_polyNumber (by omega) number
  have short : ¬ 1 < (elementShape length _ fits).intUint64PerChunk := by
    rw [intUint64PerChunk_elementShape]
    omega
  have low : ∀ k, chunk (elementShape length _ fits) (fun _ _ => 128) k < 2 ^ 7 := fun k =>
    (bitSlice_lt _ _ _).trans_le (Nat.pow_le_pow_right (by decide) (by
      change absorptionBitsize / poly.polyDegree ≤ 7
      omega))
  have value_lt := bitsplitter_of_forall (fun value => value < 2 ^ 7) short (by decide) low runs
    (poly.cell 0 0)
  have inside : 0 < poly.requestCount (UInt32.ofNat length) * poly.polyDegree := by
    rw [count_eq]
    exact Nat.mul_pos (Nat.succ_pos _) poly.polyDegree_pos
  have first := same 0 inside 0 poly.nbModuli_pos
  rw [Nat.mod_eq_of_lt length_lt, if_pos length_pos] at first
  have equal : 128 = outdata (poly.cell 0 0) :=
    eq_of_modEq poly.nbModuli_pos (by omega) (by omega) first
  omega

/-- The last polynomial has to be there, and to be copied for every prime. -/
theorem RequestsAlike.of_eight (alike : poly.RequestsAlike absorptionBitsize length)
    (eight : absorptionBitsize / poly.polyDegree = 8) :
    length < 2 ^ 32 ∧ ¬ poly.polyDegree ∣ length ∧ length / poly.polyDegree + 1 < 2 ^ 31 ∧
      (poly.nbModuli = 1 ∨
        length / poly.polyDegree * (poly.polyDegree * poly.nbModuli) < 2 ^ 32) := by
  let last := length / poly.polyDegree
  let memory : ℤ → UInt8 := fun k => if k = (last * poly.polyDegree : ℕ) then 1 else 0
  rcases alike.agreement memory with ⟨fits, fuel, outdata, count_lt, number, runs, same⟩
  have count_eq := (requestCount_of_polyNumber number).2
  have length_lt := length_lt_of_polyNumber eight.le number
  rw [Nat.mod_eq_of_lt length_lt] at count_eq same
  have ragged : ¬ poly.polyDegree ∣ length := by
    intro whole
    have number_le : poly.polyNumber (elementShape length _ fits) ≤ last := by
      rw [polyNumber_elementShape_le_iff, eight, Nat.div_mul_cancel whole, Nat.mul_comm]
    rw [number, count_eq] at number_le
    exact absurd number_le (Nat.not_succ_le_self last)
  refine ⟨length_lt, ragged, by rwa [count_eq] at count_lt, ?_⟩
  by_contra fails
  rcases not_or.mp fails with ⟨not_one, exceeds⟩
  have several : 1 < poly.nbModuli := by
    have nbModuli_pos := poly.nbModuli_pos
    omega
  have component : poly.nbModuli - 1 < poly.nbModuli := by omega
  have short : ¬ 1 < (elementShape length _ fits).intUint64PerChunk := by
    rw [intUint64PerChunk_elementShape]
    omega
  have single : (elementShape length _ fits).intUint64PerChunk = 1 := by
    have count_pos := (elementShape length _ fits).intUint64PerChunk_pos
    omega
  have marked_lt : last * poly.polyDegree < length := by
    apply lt_of_le_of_ne (Nat.div_mul_le_self _ _)
    intro whole
    exact ragged ⟨last, by rw [Nat.mul_comm, whole]⟩
  rcases Option.bind_eq_some_iff.mp runs with ⟨state, splits, finishes⟩
  rw [bsFinish, if_neg short, if_pos several, number, count_eq] at finishes
  have others : ∀ k, k ≠ last * poly.polyDegree → state.splitData k = 0 := by
    intro k other
    have byte : memory k = 0 := if_neg (by exact_mod_cast other)
    rw [SplitShape.splitBuffers_data splits, subchunk_eq_chunk single, chunk_of_eight fits eight,
      byte]
    exact ite_self 0
  have lost := copyPolynomials_last several (not_lt.mp exceeds) others finishes
  have kept := same (last * poly.polyDegree)
    (by rw [count_eq]; exact Nat.mul_lt_mul_of_pos_right (Nat.lt_succ_self _) poly.polyDegree_pos)
    _ component
  have byte : memory (last * poly.polyDegree : ℕ) = 1 := if_pos rfl
  rw [if_pos marked_lt, lost, byte] at kept
  have equal : 1 = 0 := eq_of_modEq component (by decide) (by decide) kept
  omega

/-- The second byte stands for 256 in the first coefficient of the element. -/
theorem littleEndian_second (length_ge : 2 ≤ length) :
    littleEndian (fun k => if k = 1 then 1 else 0) length = 256 := by
  rw [littleEndian, concatenate, sum_eq_single_of_mem 1 (mem_range.mpr length_ge)]
  · rfl
  · intro k _ other
    rw [if_neg other]
    exact Nat.zero_mul _

theorem chunk_second {bitsPerCoordinate : ℕ} {memory : ℤ → UInt8}
    {fits : 0 < bitsPerCoordinate ∧ 8 * length < 2 ^ 64} (long : 8 < bitsPerCoordinate)
    (bits_eq : (elementShape length bitsPerCoordinate fits).bits (fun _ => memory) = 256) (k : ℕ) :
    chunk (elementShape length bitsPerCoordinate fits) (fun _ => memory) k = 0 ∨
      chunk (elementShape length bitsPerCoordinate fits) (fun _ => memory) k = 256 := by
  have small : 256 < 2 ^ bitsPerCoordinate :=
    (by decide : 256 < 2 ^ 9).trans_le (Nat.pow_le_pow_right (by decide) long)
  rw [chunk, bits_eq]
  rcases Nat.eq_zero_or_pos k with rfl | k_pos
  · right
    rw [bitSlice, Nat.zero_mul, pow_zero, Nat.div_one]
    exact Nat.mod_eq_of_lt small
  · left
    apply bitSlice_eq_zero
    exact small.trans_le (Nat.pow_le_pow_right (by decide) (Nat.le_mul_of_pos_left _ k_pos))

/-- The first coefficient takes the second byte, and the second one does not. -/
theorem RequestsAlike.of_long (alike : poly.RequestsAlike absorptionBitsize length)
    (wide : 8 < absorptionBitsize / poly.polyDegree) : length = 1 := by
  let memory : ℤ → UInt8 := fun k => if k = 1 then 1 else 0
  have second_byte : memory 1 = 1 := if_pos rfl
  have first_byte : memory 0 = 0 := if_neg (by decide)
  rcases alike.agreement memory with ⟨fits, fuel, outdata, _, number, runs, same⟩
  rcases requestCount_of_polyNumber number with ⟨length_pos, count_eq⟩
  have enough := (polyNumber_elementShape_le_iff fits _).mp number.le
  have room := Nat.lt_mul_div_succ (length % 2 ^ 32) poly.polyDegree_pos
  rw [Nat.mul_comm, ← count_eq] at room
  by_contra other
  have bits_eq : (elementShape length _ fits).bits (fun _ => memory) = 256 := by
    rw [bits_elementShape, ← littleEndian_second (by omega : 2 ≤ length)]
    congr 1
    funext k
    exact if_congr Nat.cast_eq_one rfl rfl
  rcases Nat.lt_or_ge 1 (length % 2 ^ 32) with reached | cut
  · have values : outdata (poly.cell 1 0) = 0 ∨ outdata (poly.cell 1 0) = 256 := by
      by_cases several : 1 < (elementShape length _ fits).intUint64PerChunk
      · left
        rw [bitsplitter_long_apply several runs 1 poly.nbModuli_pos,
          crtSum_of_bits_lt several (by rw [bits_eq]; decide), if_neg Nat.one_ne_zero, Nat.zero_mod]
        exact ite_self 0
      · exact bitsplitter_of_forall (fun value => value = 0 ∨ value = 256) several (Or.inl rfl)
          (chunk_second wide bits_eq) runs _
    have second := same 1 (by omega) 0 poly.nbModuli_pos
    rw [if_pos reached, Nat.cast_one, second_byte] at second
    have equal : 1 = outdata (poly.cell 1 0) :=
      eq_of_modEq poly.nbModuli_pos (by decide) (by omega) second
    omega
  · have several : 1 < (elementShape length _ fits).intUint64PerChunk := by
      rw [intUint64PerChunk_elementShape]
      by_contra few
      have degree_le := poly.polyDegree_le
      rw [NFLlib.kMaxPolyDegree] at degree_le
      have whole := Nat.div_mul_le_self (length % 2 ^ 32) poly.polyDegree
      have capacity := enough.trans (Nat.mul_le_mul_left _ (not_lt.mp few))
      rw [count_eq, Nat.succ_mul (length % 2 ^ 32 / poly.polyDegree)] at capacity
      omega
    have total_pos : 0 < totalNbChunks (elementShape length _ fits) := by
      rw [← not_le, totalNbChunks_le_iff, totalBits_elementShape]
      omega
    have prime_gt := NFLlib.P64_gt ⟨0, by decide⟩
    have sum_eq : crtSum ((elementShape length _ fits).subchunk fun _ => memory)
        (elementShape length _ fits).intUint64PerChunk 0 (moduli 0) = 256 := by
      rw [crtSum_of_bits_lt several (by rw [bits_eq]; decide), if_pos rfl, bits_eq, moduli,
        dif_pos (by decide), Nat.mod_eq_of_lt (by omega)]
    have value : outdata (poly.cell 0 0) = 256 := by
      rw [bitsplitter_long_apply several runs 0 poly.nbModuli_pos, if_pos total_pos, sum_eq,
        Nat.mod_eq_of_lt (by decide)]
    have zero : (if 0 < length % 2 ^ 32 then (memory (0 : ℕ)).toNat else 0) = 0 := by
      rw [Nat.cast_zero, first_byte]
      exact ite_self 0
    have first := same 0 (by omega) 0 poly.nbModuli_pos
    rw [zero, value] at first
    have equal : 0 = 256 := eq_of_modEq poly.nbModuli_pos (by decide) (by decide) first
    omega

theorem laidOutAlike_of_requestsAlike (alike : poly.RequestsAlike absorptionBitsize length) :
    poly.LaidOutAlike absorptionBitsize length := by
  rcases Nat.eq_or_lt_of_le alike.eight_le with eight | wide
  · rcases alike.of_eight eight.symm with ⟨length_lt, ragged, count_lt, offsets⟩
    exact ⟨length_lt, ragged, count_lt, Or.inl ⟨eight.symm, offsets⟩⟩
  · have one := alike.of_long wide
    rcases alike.agreement fun _ => 0 with ⟨fits, _, _, _, number, _, _⟩
    have count_eq := (requestCount_of_polyNumber number).2
    have number_le : poly.polyNumber (elementShape length _ fits) ≤ 1 := by
      rw [polyNumber_elementShape_le_iff, one, Nat.one_mul]
      exact wide.le.trans (Nat.le_mul_of_pos_left _ poly.polyDegree_pos)
    subst one
    have degree_gt : 1 < poly.polyDegree := by
      by_contra small
      have degree_one : poly.polyDegree = 1 := by
        have degree_pos := poly.polyDegree_pos
        omega
      rw [number, count_eq, degree_one] at number_le
      exact absurd number_le (by decide)
    refine ⟨by decide, ?_, ?_, Or.inr ⟨rfl, wide⟩⟩
    · rw [Nat.dvd_one]
      exact degree_gt.ne'
    · rw [Nat.div_eq_of_lt degree_gt]
      decide

end Necessity

section Exactness

/--
A request of the LWE client has the layout of the element exactly if eight bits are absorbed
by a coefficient and the length is no multiple of the degree, within the limits of the
counters, or if the element is a single byte. That of the FV client never has it.
-/
theorem requestsAlike_iff (poly : PolyShape) (absorptionBitsize length : ℕ) :
    (poly.RequestsAlike absorptionBitsize length ↔ poly.LaidOutAlike absorptionBitsize length) ∧
      ∀ p, ¬ NFLFV.RequestsAlike poly p absorptionBitsize length :=
  ⟨⟨laidOutAlike_of_requestsAlike, requestsAlike_of_laidOutAlike⟩,
    fun p => NFLFV.not_requestsAlike poly p absorptionBitsize length⟩

example : PolyShape.LaidOutAlike ⟨1024, 3, by decide, by decide, by decide, by decide⟩
    (8 * 1024) 3000 := by decide

/-- An element that fills a polynomial of degree 1024 is subtracted from with two. -/
theorem not_requestsAlike_full :
    ¬ PolyShape.RequestsAlike ⟨1024, 1, by decide, by decide, by decide, by decide⟩
      (8 * 1024) 1024 :=
  fun alike => (alike.of_eight rfl).2.1 (dvd_refl 1024)

end Exactness

end PolyShape

end Xpir
