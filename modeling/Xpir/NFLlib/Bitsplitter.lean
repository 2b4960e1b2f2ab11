import Mathlib.Algebra.Order.Floor.Div
import Xpir.NFLlib.Bitsplit
import Xpir.NFLlib.NFLParams

/-!
# From subchunks to polynomials

This file models the part of the data import that turns the subchunks into
coefficients: `bs_finish`, with the reconstruction of long integers modulo the
primes, and `bitsplitter` as a whole. A coefficient of one subchunk is copied for
every prime. A longer one is the sum of its subchunks times powers of `2 ^ 56`.

Both loops over the coefficients count in 32 bits, while neither the number of
chunks nor the offsets into the polynomials are bounded by 32 bits. Except for
that, the polynomials hold exactly the chunks of the bit string; `bitsplitter_iff`
says for which shapes this is so.
-/

namespace Xpir

open Finset

/-- What the data import reads of the NFLlib instance. -/
structure PolyShape where
  polyDegree : ℕ
  nbModuli : ℕ
  polyDegree_pos : 0 < polyDegree
  polyDegree_le : polyDegree ≤ NFLlib.kMaxPolyDegree
  nbModuli_pos : 0 < nbModuli
  nbModuli_le : nbModuli ≤ NFLlib.kMaxNbModuli

/-- The loop variables of `internalLongIntegersToCRT`. -/
structure CRTState where
  outdata : ℕ → ℕ
  i : ℕ
  outdataPtr : ℕ
  indataPtr : ℕ

/-- The loop variables of the copy made when a chunk is one subchunk. -/
structure CopyState where
  outdata : ℕ → ℕ
  i : ℕ

namespace PolyShape

variable (poly : PolyShape)

def moduli (cm : ℕ) : ℕ :=
  if inTable : cm < NFLlib.kMaxNbModuli then NFLlib.P64 ⟨cm, inTable⟩ else 0

/-- Where coefficient `k` of a sequence of polynomials is stored for a given prime. -/
def cell (k cm : ℕ) : ℕ :=
  (k / poly.polyDegree * poly.nbModuli + cm) * poly.polyDegree + k % poly.polyDegree

/-- The table of `(2 ^ 56) ^ j` modulo a prime. -/
def multiplier (p : ℕ) : ℕ → ℕ
  | 0 => 1
  | j + 1 => NFLlib.mulmod (multiplier p j) (1 <<< 56) p

/-- The loops of `internalLongIntegersToCRT` over the subchunks of one chunk. -/
def accumulateChunk (tmpdata : ℕ → ℕ) (intUint64PerChunk outdataPtr indataPtr : ℕ)
    (outdata : ℕ → ℕ) : ℕ → ℕ :=
  forLoop intUint64PerChunk (fun j outdata =>
    forLoop poly.nbModuli (fun cm outdata =>
      Function.update outdata (outdataPtr + cm * poly.polyDegree)
        ((outdata (outdataPtr + cm * poly.polyDegree) +
          NFLlib.mulmod (tmpdata (indataPtr + j)) (multiplier (moduli cm) j) (moduli cm)) %
            2 ^ 64)) outdata) outdata

def crtStep (tmpdata : ℕ → ℕ) (intUint64PerChunk : ℕ) (state : CRTState) : CRTState where
  outdata := poly.accumulateChunk tmpdata intUint64PerChunk state.outdataPtr state.indataPtr
    state.outdata
  i := (state.i + 1) % 2 ^ 32
  outdataPtr :=
    if (state.i + 1) % 2 ^ 32 % poly.polyDegree = 0 then
      state.outdataPtr + 1 + poly.polyDegree * (poly.nbModuli - 1)
    else state.outdataPtr + 1
  indataPtr := state.indataPtr + intUint64PerChunk

def internalLongIntegersToCRT (fuel : ℕ) (tmpdata : ℕ → ℕ)
    (intUint64PerChunk totalNbChunks : ℕ) : Option (ℕ → ℕ) :=
  (whileLoop (fun state => state.i < totalNbChunks)
    (fun state => some (poly.crtStep tmpdata intUint64PerChunk state)) fuel
    { outdata := fun _ => 0, i := 0, outdataPtr := 0, indataPtr := 0 }).map CRTState.outdata

def memcpy (destination : ℕ → ℕ) (offset : ℕ) (source : ℕ → ℕ) (start count : ℕ) : ℕ → ℕ :=
  forLoop count (fun x destination =>
    Function.update destination (offset + x) (source (start + x))) destination

/-- The offsets are `unsigned`. -/
def copyStep (splitData : ℕ → ℕ) (state : CopyState) : CopyState where
  outdata := forLoop poly.nbModuli (fun cm outdata =>
    memcpy outdata
      (state.i * poly.polyDegree * poly.nbModuli % 2 ^ 32 + cm * poly.polyDegree % 2 ^ 32)
      splitData (state.i * poly.polyDegree % 2 ^ 32) poly.polyDegree) state.outdata
  i := (state.i + 1) % 2 ^ 32

def copyPolynomials (fuel : ℕ) (splitData : ℕ → ℕ) (polyNumber : ℕ) : Option (ℕ → ℕ) :=
  (whileLoop (fun state => state.i < polyNumber)
    (fun state => some (poly.copyStep splitData state)) fuel
    { outdata := fun _ => 0, i := 0 }).map CopyState.outdata

variable (shape : SplitShape)

def totalBits : ℕ := shape.nbrOfBuffers * shape.bitsPerBuffer

/-- `ceil((double) bitsPerBuffer * nbrOfBuffers / bitsPerChunk)`. -/
def totalNbChunks : ℕ := totalBits shape ⌈/⌉ shape.bitsPerChunk

def polyNumber : ℕ := totalBits shape ⌈/⌉ (shape.bitsPerChunk * poly.polyDegree)

def bsFinish (fuel : ℕ) (splitData : ℕ → ℕ) : Option (ℕ → ℕ) :=
  if 1 < shape.intUint64PerChunk then
    poly.internalLongIntegersToCRT fuel splitData shape.intUint64PerChunk (totalNbChunks shape)
  else if 1 < poly.nbModuli then
    poly.copyPolynomials fuel splitData (poly.polyNumber shape)
  else some splitData

def bitsplitter (fuel : ℕ) (buffers : ℕ → ℤ → UInt8) : Option (ℕ → ℕ) :=
  (shape.splitBuffers fuel buffers).bind
    (fun state => poly.bsFinish shape fuel state.splitData)

/-- The integer formed by the bits of one chunk. -/
def chunk (buffers : ℕ → ℤ → UInt8) (k : ℕ) : ℕ :=
  bitSlice (shape.bits buffers) (k * shape.bitsPerChunk) shape.bitsPerChunk

/-- The polynomials hold the chunks of the bit string, and zeros after them. -/
structure HoldsChunks (buffers : ℕ → ℤ → UInt8) (outdata : ℕ → ℕ) : Prop where
  coefficient : ∀ k, k * shape.bitsPerChunk < totalBits shape →
    k < poly.polyNumber shape * poly.polyDegree ∧ ∀ cm < poly.nbModuli,
      outdata (poly.cell k cm) ≡ chunk shape buffers k [MOD moduli cm]
  padding : ∀ k < poly.polyNumber shape * poly.polyDegree,
    totalBits shape ≤ k * shape.bitsPerChunk → ∀ cm < poly.nbModuli,
      outdata (poly.cell k cm) = 0

/-- The import ends with the chunks of the given buffers. -/
def SplitsExactly (buffers : ℕ → ℤ → UInt8) : Prop :=
  ∃ fuel outdata, poly.bitsplitter shape fuel buffers = some outdata ∧
    poly.HoldsChunks shape buffers outdata

/-- The 32-bit counters suffice for the number of chunks and of words. -/
def CountersFit : Prop :=
  if 1 < shape.intUint64PerChunk then totalNbChunks shape < 2 ^ 32
  else poly.nbModuli = 1 ∨
    (poly.polyNumber shape - 1) * (poly.polyDegree * poly.nbModuli) < 2 ^ 32

instance : Decidable (poly.CountersFit shape) :=
  inferInstanceAs (Decidable (if 1 < shape.intUint64PerChunk then _ else _))

section Cells

variable {poly shape}

theorem cell_add_mul (k cm : ℕ) :
    poly.cell k 0 + cm * poly.polyDegree = poly.cell k cm := by
  rw [cell, cell]
  ring

theorem cell_div (k cm : ℕ) :
    poly.cell k cm / poly.polyDegree = k / poly.polyDegree * poly.nbModuli + cm := by
  rw [cell, mul_comm, Nat.mul_add_div poly.polyDegree_pos,
    Nat.div_eq_of_lt (Nat.mod_lt _ poly.polyDegree_pos), add_zero]

theorem cell_mod (k cm : ℕ) : poly.cell k cm % poly.polyDegree = k % poly.polyDegree := by
  rw [cell, mul_comm, Nat.mul_add_mod, Nat.mod_mod]

/-- Different coefficients are stored in different places. -/
theorem cell_inj {k other cm otherCm : ℕ} (cm_lt : cm < poly.nbModuli)
    (other_lt : otherCm < poly.nbModuli) (same : poly.cell k cm = poly.cell other otherCm) :
    k = other ∧ cm = otherCm := by
  have quotients := congrArg (· / poly.polyDegree) same
  have remainders := congrArg (· % poly.polyDegree) same
  simp only [cell_div, cell_mod] at quotients remainders
  have polynomials := congrArg (· / poly.nbModuli) quotients
  have components := congrArg (· % poly.nbModuli) quotients
  simp only [mul_comm _ poly.nbModuli, Nat.mul_add_div poly.nbModuli_pos, Nat.mul_add_mod,
    Nat.div_eq_of_lt cm_lt, Nat.div_eq_of_lt other_lt, Nat.mod_eq_of_lt cm_lt,
    Nat.mod_eq_of_lt other_lt, add_zero] at polynomials components
  refine ⟨?_, components⟩
  rw [← Nat.div_add_mod k poly.polyDegree, polynomials, remainders, Nat.div_add_mod]

theorem cell_mul (i cm : ℕ) :
    poly.cell (i * poly.polyDegree) cm = (i * poly.nbModuli + cm) * poly.polyDegree := by
  rw [cell, Nat.mul_mod_left, Nat.mul_div_cancel _ poly.polyDegree_pos, add_zero]

/-- The words of one polynomial can be counted in 32 bits. -/
theorem component_lt {cm : ℕ} (cm_lt : cm < poly.nbModuli) : cm * poly.polyDegree < 2 ^ 32 := by
  have degree_le := poly.polyDegree_le
  have nbModuli_le := poly.nbModuli_le
  rw [NFLlib.kMaxPolyDegree] at degree_le
  rw [NFLlib.kMaxNbModuli] at nbModuli_le
  nlinarith

theorem cell_succ (k : ℕ) :
    poly.cell (k + 1) 0 =
      if (k + 1) % poly.polyDegree = 0 then
        poly.cell k 0 + 1 + poly.polyDegree * (poly.nbModuli - 1)
      else poly.cell k 0 + 1 := by
  have degree_pos := poly.polyDegree_pos
  have split_k := Nat.div_add_mod k poly.polyDegree
  have part_lt := Nat.mod_lt k degree_pos
  rw [cell, cell, add_zero, add_zero]
  split
  next wraps =>
    have last : k % poly.polyDegree + 1 = poly.polyDegree := by
      rw [← Nat.mod_add_mod] at wraps
      have dvd := Nat.le_of_dvd (Nat.succ_pos _) (Nat.dvd_of_mod_eq_zero wraps)
      omega
    have whole : k + 1 = poly.polyDegree * (k / poly.polyDegree + 1) := by
      rw [Nat.mul_succ]
      omega
    rcases Nat.exists_eq_succ_of_ne_zero poly.nbModuli_pos.ne' with ⟨rest, nbModuli_eq⟩
    rw [wraps, whole, Nat.mul_div_cancel_left _ degree_pos, nbModuli_eq, Nat.succ_sub_one]
    nlinarith [last]
  next inner =>
    have next_lt : k % poly.polyDegree + 1 < poly.polyDegree := by
      apply lt_of_le_of_ne part_lt
      intro last
      apply inner
      rw [← Nat.mod_add_mod, last, Nat.mod_self]
    have next_eq : k + 1 = poly.polyDegree * (k / poly.polyDegree) + (k % poly.polyDegree + 1) := by
      omega
    rw [next_eq, Nat.mul_add_div degree_pos, Nat.mul_add_mod, Nat.div_eq_of_lt next_lt,
      Nat.mod_eq_of_lt next_lt, add_zero, add_assoc]

theorem moduli_gt {cm : ℕ} (cm_lt : cm < poly.nbModuli) : 1 < moduli cm := by
  have inTable := cm_lt.trans_le poly.nbModuli_le
  have bound := NFLlib.P64_gt ⟨cm, inTable⟩
  rw [moduli, dif_pos inTable]
  omega

theorem moduli_lt {cm : ℕ} (cm_lt : cm < poly.nbModuli) : moduli cm < 2 ^ 61 := by
  have inTable := cm_lt.trans_le poly.nbModuli_le
  rw [moduli, dif_pos inTable]
  exact NFLlib.P64_lt ⟨cm, inTable⟩

theorem totalNbChunks_le_iff (k : ℕ) :
    totalNbChunks shape ≤ k ↔ totalBits shape ≤ k * shape.bitsPerChunk := by
  rw [totalNbChunks, ceilDiv_le_iff_le_mul shape.chunk_pos, mul_comm]

theorem polyNumber_le_iff (count : ℕ) :
    poly.polyNumber shape ≤ count ↔
      totalBits shape ≤ count * poly.polyDegree * shape.bitsPerChunk := by
  rw [polyNumber, ceilDiv_le_iff_le_mul (Nat.mul_pos shape.chunk_pos poly.polyDegree_pos),
    mul_comm count, mul_comm (poly.polyDegree * count), mul_assoc]

/-- There is room for every chunk. -/
theorem lt_polyNumber {k : ℕ} (inside : k * shape.bitsPerChunk < totalBits shape) :
    k < poly.polyNumber shape * poly.polyDegree := by
  rw [← not_le] at inside ⊢
  intro beyond
  apply inside
  have enough := (polyNumber_le_iff (poly.polyNumber shape)).mp le_rfl
  exact enough.trans (Nat.mul_le_mul_right _ beyond)

theorem chunk_eq_zero (buffers : ℕ → ℤ → UInt8) {k : ℕ}
    (beyond : totalBits shape ≤ k * shape.bitsPerChunk) : chunk shape buffers k = 0 := by
  apply bitSlice_eq_zero
  exact (shape.bits_lt_two_pow buffers).trans_le (Nat.pow_le_pow_right (by decide) beyond)

/-- The subchunks of a chunk are its digits in base `2 ^ 56`. -/
theorem concatenate_subchunk (buffers : ℕ → ℤ → UInt8) (k : ℕ) :
    concatenate 56 (fun j => shape.subchunk buffers (k * shape.intUint64PerChunk + j))
        shape.intUint64PerChunk =
      chunk shape buffers k := by
  rw [chunk, ← concatenate_subchunks (by decide : 0 < 56) shape.chunk_pos]
  apply concatenate_congr
  intro j j_lt
  rw [SplitShape.subchunk, SplitShape.start, SplitShape.subchunkSizes]
  rw [SplitShape.intUint64PerChunk] at *
  rw [subchunkStart_chunk (by decide) shape.chunk_pos k j_lt,
    mul_comm k (subchunkCount 56 shape.bitsPerChunk), Nat.mul_add_mod, Nat.mod_eq_of_lt j_lt]

end Cells

section LongIntegers

variable {poly} {tmpdata : ℕ → ℕ} {intUint64PerChunk : ℕ}

/-- The sum that `internalLongIntegersToCRT` computes for one chunk and one prime. -/
def crtSum (tmpdata : ℕ → ℕ) (intUint64PerChunk k p : ℕ) : ℕ :=
  ∑ j ∈ range intUint64PerChunk,
    NFLlib.mulmod (tmpdata (k * intUint64PerChunk + j)) (multiplier p j) p

theorem cast_multiplier (p j : ℕ) : (multiplier p j : ZMod p) = 2 ^ (56 * j) := by
  induction j with
  | zero => simp [multiplier]
  | succ j ih =>
      rw [multiplier, NFLlib.cast_mulmod, ih, Nat.mul_succ, pow_add, Nat.shiftLeft_eq, one_mul,
        Nat.cast_pow, Nat.cast_ofNat]

theorem crtSum_modEq (tmpdata : ℕ → ℕ) (intUint64PerChunk k p : ℕ) :
    crtSum tmpdata intUint64PerChunk k p ≡
      concatenate 56 (fun j => tmpdata (k * intUint64PerChunk + j)) intUint64PerChunk [MOD p] := by
  rw [← ZMod.natCast_eq_natCast_iff, crtSum, concatenate, Nat.cast_sum, Nat.cast_sum]
  apply sum_congr rfl
  intro j _
  rw [NFLlib.cast_mulmod, cast_multiplier]
  push_cast
  rfl

/-- Eight products below `2 ^ 61` are added without overflow. -/
theorem crtSum_lt (tmpdata : ℕ → ℕ) {intUint64PerChunk : ℕ} (few : intUint64PerChunk ≤ 8) (k : ℕ)
    {cm : ℕ} (cm_lt : cm < poly.nbModuli) :
    crtSum tmpdata intUint64PerChunk k (moduli cm) < 2 ^ 64 := by
  rcases Nat.eq_zero_or_pos intUint64PerChunk with rfl | some_part
  · rw [crtSum, sum_range_zero]
    exact Nat.two_pow_pos 64
  · have residue_lt : ∀ j ∈ range intUint64PerChunk, NFLlib.mulmod
        (tmpdata (k * intUint64PerChunk + j)) (multiplier (moduli cm) j) (moduli cm) < 2 ^ 61 :=
      fun j _ => (NFLlib.mulmod_lt (moduli_gt cm_lt).le _ _).trans (moduli_lt cm_lt)
    calc crtSum tmpdata intUint64PerChunk k (moduli cm)
        < ∑ _j ∈ range intUint64PerChunk, 2 ^ 61 :=
          sum_lt_sum_of_nonempty (nonempty_range_iff.mpr some_part.ne') residue_lt
      _ = intUint64PerChunk * 2 ^ 61 := by rw [sum_const, card_range, smul_eq_mul]
      _ ≤ 8 * 2 ^ 61 := Nat.mul_le_mul_right _ few

/-- The sums are computed in words. -/
theorem accumulateChunk_apply (tmpdata : ℕ → ℕ) {outdata : ℕ → ℕ} {k : ℕ}
    (fresh : ∀ cm < poly.nbModuli, outdata (poly.cell k cm) = 0) :
    let result := poly.accumulateChunk tmpdata intUint64PerChunk (poly.cell k 0)
      (k * intUint64PerChunk) outdata
    (∀ cm < poly.nbModuli,
      result (poly.cell k cm) = crtSum tmpdata intUint64PerChunk k (moduli cm) % 2 ^ 64) ∧
    ∀ index, (∀ cm < poly.nbModuli, index ≠ poly.cell k cm) → result index = outdata index := by
  have injective : Function.Injective (poly.cell k) := by
    intro cm other same
    rw [← cell_add_mul, ← cell_add_mul k other] at same
    exact Nat.eq_of_mul_eq_mul_right poly.polyDegree_pos (Nat.add_left_cancel same)
  rw [accumulateChunk]
  simp only [cell_add_mul]
  have run := forLoop_induction intUint64PerChunk
    (fun j outdata => forLoop poly.nbModuli (fun cm outdata =>
      Function.update outdata (poly.cell k cm) ((outdata (poly.cell k cm) +
        NFLlib.mulmod (tmpdata (k * intUint64PerChunk + j)) (multiplier (moduli cm) j)
          (moduli cm)) % 2 ^ 64)) outdata)
    outdata
    (fun count result =>
      (∀ cm < poly.nbModuli, result (poly.cell k cm) = (∑ j ∈ range count,
        NFLlib.mulmod (tmpdata (k * intUint64PerChunk + j)) (multiplier (moduli cm) j)
          (moduli cm)) % 2 ^ 64) ∧
      ∀ index, (∀ cm < poly.nbModuli, index ≠ poly.cell k cm) → result index = outdata index)
    ⟨fun cm cm_lt => by rw [fresh cm cm_lt, sum_range_zero, Nat.zero_mod], fun index _ => rfl⟩
    (by
      rintro j result j_lt ⟨sums, others⟩
      refine ⟨?_, ?_⟩
      · intro cm cm_lt
        rw [forLoop_update_cell injective.injOn (fun cm word => (word +
          NFLlib.mulmod (tmpdata (k * intUint64PerChunk + j)) (multiplier (moduli cm) j)
            (moduli cm)) % 2 ^ 64) result cm_lt, sums cm cm_lt, sum_range_succ, Nat.mod_add_mod]
      · intro index other
        rw [forLoop_update_of_ne (fun cm word => (word +
          NFLlib.mulmod (tmpdata (k * intUint64PerChunk + j)) (multiplier (moduli cm) j)
            (moduli cm)) % 2 ^ 64) result other, others index other])
  exact run

/-- The invariant of the loop over the chunks. -/
structure CRTInvariant (poly : PolyShape) (tmpdata : ℕ → ℕ) (intUint64PerChunk total : ℕ)
    (state : CRTState) : Prop where
  i_le : state.i ≤ total
  outdataPtr : state.outdataPtr = poly.cell state.i 0
  indataPtr : state.indataPtr = state.i * intUint64PerChunk
  data : ∀ k, ∀ cm < poly.nbModuli, state.outdata (poly.cell k cm) =
    if k < state.i then crtSum tmpdata intUint64PerChunk k (moduli cm) % 2 ^ 64 else 0

theorem CRTInvariant.step {total : ℕ} {state : CRTState} (total_lt : total < 2 ^ 32)
    (holds : CRTInvariant poly tmpdata intUint64PerChunk total state)
    (continues : state.i < total) :
    CRTInvariant poly tmpdata intUint64PerChunk total
      (poly.crtStep tmpdata intUint64PerChunk state) ∧
      (poly.crtStep tmpdata intUint64PerChunk state).i = state.i + 1 := by
  have i_eq : (state.i + 1) % 2 ^ 32 = state.i + 1 := Nat.mod_eq_of_lt (by omega)
  have fresh : ∀ cm < poly.nbModuli, state.outdata (poly.cell state.i cm) = 0 := by
    intro cm cm_lt
    rw [holds.data state.i cm cm_lt, if_neg (Nat.lt_irrefl _)]
  rcases accumulateChunk_apply tmpdata fresh with ⟨sums, others⟩
  rw [crtStep, i_eq, holds.outdataPtr, holds.indataPtr]
  refine ⟨⟨continues, ?_, ?_, ?_⟩, rfl⟩
  · exact (cell_succ state.i).symm
  · exact (Nat.succ_mul _ _).symm
  · intro k cm cm_lt
    change poly.accumulateChunk _ _ _ _ _ (poly.cell k cm) = if k < state.i + 1 then _ else 0
    rcases lt_trichotomy k state.i with before | rfl | after
    · rw [others, holds.data k cm cm_lt, if_pos before, if_pos (Nat.lt_succ_of_lt before)]
      intro other other_lt same
      exact before.ne (cell_inj cm_lt other_lt same).1
    · rw [sums cm cm_lt, if_pos (Nat.lt_succ_self _)]
    · rw [others, holds.data k cm cm_lt, if_neg (not_lt.mpr after.le),
        if_neg (not_lt.mpr after)]
      intro other other_lt same
      exact after.ne' (cell_inj cm_lt other_lt same).1

theorem internalLongIntegersToCRT_eq (tmpdata : ℕ → ℕ) (fuel : ℕ) {total : ℕ}
    (total_lt : total < 2 ^ 32) (enough : total < fuel) :
    ∃ outdata, poly.internalLongIntegersToCRT fuel tmpdata intUint64PerChunk total =
        some outdata ∧
      ∀ k, ∀ cm < poly.nbModuli, outdata (poly.cell k cm) =
        if k < total then crtSum tmpdata intUint64PerChunk k (moduli cm) % 2 ^ 64 else 0 := by
  have initial : CRTInvariant poly tmpdata intUint64PerChunk total
      { outdata := fun _ => 0, i := 0, outdataPtr := 0, indataPtr := 0 } :=
    ⟨Nat.zero_le _, by simp [cell], by simp, fun k cm _ => by simp⟩
  rcases whileLoop_total (fun state : CRTState => state.i < total)
    (fun state => some (poly.crtStep tmpdata intUint64PerChunk state))
    (CRTInvariant poly tmpdata intUint64PerChunk total) (fun state => total - state.i)
    (by
      intro state holds continues
      have unfinished : state.i < total := of_decide_eq_true continues
      rcases holds.step total_lt unfinished with ⟨nextHolds, advances⟩
      exact ⟨_, rfl, nextHolds, by omega⟩)
    fuel _ initial (by omega) with ⟨final, runs, holds, stops⟩
  have finished : final.i = total := le_antisymm holds.i_le (not_lt.mp (of_decide_eq_false stops))
  refine ⟨final.outdata, ?_, ?_⟩
  · rw [internalLongIntegersToCRT, runs]
    rfl
  · rw [← finished]
    exact holds.data

/-- With too many chunks, the 32-bit counter wraps around before it reaches their number. -/
theorem internalLongIntegersToCRT_eq_none {total : ℕ} (total_ge : 2 ^ 32 ≤ total) (fuel : ℕ) :
    poly.internalLongIntegersToCRT fuel tmpdata intUint64PerChunk total = none := by
  rw [internalLongIntegersToCRT, whileLoop_eq_none (fun state : CRTState => state.i < 2 ^ 32)]
  · rfl
  · intro state i_lt
    exact decide_eq_true (i_lt.trans_le total_ge)
  · intro state next _ steps
    rw [← Option.some.inj steps]
    exact Nat.mod_lt _ (by decide)
  · exact Nat.two_pow_pos 32

end LongIntegers

section Copies

variable {poly shape}

theorem memcpy_apply (destination : ℕ → ℕ) (offset : ℕ) (source : ℕ → ℕ) (start count index : ℕ) :
    memcpy destination offset source start count index =
      if offset ≤ index ∧ index < offset + count then source (start + (index - offset))
      else destination index := by
  rw [memcpy]
  split
  next inside =>
    have part_lt : index - offset < count := by omega
    have written := forLoop_update_cell (add_right_injective offset).injOn
      (fun x _ => source (start + x)) destination part_lt
    rw [Nat.add_sub_cancel' inside.1] at written
    exact written
  next outside =>
    apply forLoop_update_of_ne (fun x _ => source (start + x))
    intro x x_lt same
    omega

/-- The stretch of words that one `memcpy` fills. -/
theorem cell_mem_iff {i k cm copied : ℕ} (cm_lt : cm < poly.nbModuli)
    (copied_lt : copied < poly.nbModuli) :
    poly.cell (i * poly.polyDegree) copied ≤ poly.cell k cm ∧
        poly.cell k cm < poly.cell (i * poly.polyDegree) copied + poly.polyDegree ↔
      k / poly.polyDegree = i ∧ cm = copied := by
  have degree_pos := poly.polyDegree_pos
  have part_lt := Nat.mod_lt k degree_pos
  constructor
  · rintro ⟨below, above⟩
    have quotient := Nat.div_eq_of_lt_le (m := poly.cell k cm)
      (n := poly.polyDegree) (k := i * poly.nbModuli + copied)
      (by rwa [cell_mul] at below)
      (by rwa [cell_mul, ← Nat.succ_mul] at above)
    rw [cell_div] at quotient
    have rows : poly.cell (k / poly.polyDegree * poly.polyDegree) cm =
        poly.cell (i * poly.polyDegree) copied := by
      rw [cell_mul, cell_mul, quotient]
    rcases cell_inj cm_lt copied_lt rows with ⟨same, components⟩
    exact ⟨Nat.eq_of_mul_eq_mul_right degree_pos same, components⟩
  · rintro ⟨rfl, rfl⟩
    rw [cell_mul, cell]
    omega

theorem copyStep_apply {splitData : ℕ → ℕ} {state : CopyState}
    (fits : state.i * (poly.polyDegree * poly.nbModuli) < 2 ^ 32) {k cm : ℕ}
    (cm_lt : cm < poly.nbModuli) :
    (poly.copyStep splitData state).outdata (poly.cell k cm) =
      if k / poly.polyDegree = state.i then splitData k else state.outdata (poly.cell k cm) := by
  have degree_pos := poly.polyDegree_pos
  have wide : poly.polyDegree ≤ poly.polyDegree * poly.nbModuli :=
    Nat.le_mul_of_pos_right _ poly.nbModuli_pos
  have start_lt : state.i * poly.polyDegree < 2 ^ 32 :=
    (Nat.mul_le_mul_left state.i wide).trans_lt fits
  have run := forLoop_induction poly.nbModuli
    (fun copied outdata => memcpy outdata
      (state.i * poly.polyDegree * poly.nbModuli % 2 ^ 32 + copied * poly.polyDegree % 2 ^ 32)
      splitData (state.i * poly.polyDegree % 2 ^ 32) poly.polyDegree)
    state.outdata
    (fun count outdata => ∀ k, ∀ cm < poly.nbModuli, outdata (poly.cell k cm) =
      if k / poly.polyDegree = state.i ∧ cm < count then splitData k
      else state.outdata (poly.cell k cm))
    (fun k cm _ => by simp)
    (by
      intro copied outdata copied_lt holds k cm cm_lt
      have offset_eq : state.i * poly.polyDegree * poly.nbModuli + copied * poly.polyDegree =
          poly.cell (state.i * poly.polyDegree) copied := by
        rw [cell_mul]
        ring
      rw [mul_assoc, Nat.mod_eq_of_lt fits, Nat.mod_eq_of_lt (component_lt copied_lt),
        Nat.mod_eq_of_lt start_lt, ← mul_assoc, offset_eq, memcpy_apply, holds k cm cm_lt]
      simp only [cell_mem_iff cm_lt copied_lt]
      by_cases owned : k / poly.polyDegree = state.i ∧ cm = copied
      · have part : poly.cell k cm - poly.cell (state.i * poly.polyDegree) copied =
            k % poly.polyDegree := by
          rw [← offset_eq, cell, owned.1, owned.2]
          have expand : (state.i * poly.nbModuli + copied) * poly.polyDegree =
            state.i * poly.polyDegree * poly.nbModuli + copied * poly.polyDegree := by ring
          omega
        rw [if_pos owned, if_pos ⟨owned.1, by omega⟩, part, ← owned.1, Nat.div_add_mod']
      · rw [if_neg owned]
        apply if_congr _ rfl rfl
        omega)
  have value := run k cm cm_lt
  simp only [cm_lt, and_true] at value
  exact value

/-- Whatever the offsets are, all that is copied are the words that have been split. -/
theorem copyPolynomials_of_forall {holds : ℕ → Prop} {splitData : ℕ → ℕ} {fuel number : ℕ}
    {outdata : ℕ → ℕ} (zero : holds 0) (all : ∀ k, holds (splitData k))
    (returns : poly.copyPolynomials fuel splitData number = some outdata) (index : ℕ) :
    holds (outdata index) := by
  rw [copyPolynomials] at returns
  rcases Option.map_eq_some_iff.mp returns with ⟨final, runs, rfl⟩
  refine whileLoop_invariant (fun state : CopyState => ∀ index, holds (state.outdata index)) ?_
    (fun _ => zero) runs index
  intro state next before _ steps
  rw [← Option.some.inj steps]
  refine forLoop_induction _ _ _ (fun (_ : ℕ) (outdata : ℕ → ℕ) => ∀ index, holds (outdata index))
    before ?_
  intro copied outdata _ earlier index
  rw [memcpy_apply]
  split
  next => exact all _
  next => exact earlier index

/-- As long as the offsets fit in 32 bits, every polynomial is copied to its place. -/
theorem copyPolynomials_eq (splitData : ℕ → ℕ) (fuel : ℕ) {polyNumber : ℕ}
    (several : 1 < poly.nbModuli)
    (fits : (polyNumber - 1) * (poly.polyDegree * poly.nbModuli) < 2 ^ 32)
    (enough : polyNumber < fuel) :
    ∃ outdata, poly.copyPolynomials fuel splitData polyNumber = some outdata ∧
      ∀ k < polyNumber * poly.polyDegree, ∀ cm < poly.nbModuli,
        outdata (poly.cell k cm) = splitData k := by
  have degree_pos := poly.polyDegree_pos
  have wide : 2 ≤ poly.polyDegree * poly.nbModuli := by nlinarith
  have number_le : polyNumber < 2 ^ 32 := by
    have bound := Nat.mul_le_mul_left (polyNumber - 1) wide
    omega
  rcases whileLoop_total (fun state : CopyState => state.i < polyNumber)
    (fun state => some (poly.copyStep splitData state))
    (fun state => state.i ≤ polyNumber ∧ ∀ k < state.i * poly.polyDegree, ∀ cm < poly.nbModuli,
      state.outdata (poly.cell k cm) = splitData k)
    (fun state => polyNumber - state.i)
    (by
      rintro state ⟨i_le, copied⟩ continues
      have unfinished : state.i < polyNumber := of_decide_eq_true continues
      have i_eq : (poly.copyStep splitData state).i = state.i + 1 :=
        Nat.mod_eq_of_lt (by omega)
      have offset_lt : state.i * (poly.polyDegree * poly.nbModuli) < 2 ^ 32 :=
        (Nat.mul_le_mul_right _ (by omega)).trans_lt fits
      refine ⟨_, rfl, ⟨?_, ?_⟩, ?_⟩
      · omega
      · intro k k_lt cm cm_lt
        rw [copyStep_apply offset_lt cm_lt]
        split
        next => rfl
        next other =>
          apply copied k _ cm cm_lt
          have row_lt : k / poly.polyDegree < state.i + 1 :=
            (Nat.div_lt_iff_lt_mul degree_pos).mpr (by rwa [i_eq] at k_lt)
          exact (Nat.div_lt_iff_lt_mul degree_pos).mp (by omega)
      · omega)
    fuel { outdata := fun _ => 0, i := 0 } ⟨Nat.zero_le _, by simp⟩ (by omega)
    with ⟨final, runs, ⟨i_le, copied⟩, stops⟩
  have finished : final.i = polyNumber := le_antisymm i_le (not_lt.mp (of_decide_eq_false stops))
  refine ⟨final.outdata, ?_, ?_⟩
  · rw [copyPolynomials, runs]
    rfl
  · rw [← finished]
    exact copied

/-- No wrapped copy takes the first word of the last polynomial to its last place. -/
theorem wrapped_ne {last i copied : ℕ} (several : 1 < poly.nbModuli)
    (exceeds : 2 ^ 32 ≤ last * (poly.polyDegree * poly.nbModuli)) (i_lt : i < last + 1)
    (copied_lt : copied < poly.nbModuli)
    (below : i * poly.polyDegree * poly.nbModuli % 2 ^ 32 + copied * poly.polyDegree % 2 ^ 32 ≤
      poly.cell (last * poly.polyDegree) (poly.nbModuli - 1))
    (above : poly.cell (last * poly.polyDegree) (poly.nbModuli - 1) <
      i * poly.polyDegree * poly.nbModuli % 2 ^ 32 + copied * poly.polyDegree % 2 ^ 32 +
        poly.polyDegree) :
    i * poly.polyDegree % 2 ^ 32 + (poly.cell (last * poly.polyDegree) (poly.nbModuli - 1) -
      (i * poly.polyDegree * poly.nbModuli % 2 ^ 32 + copied * poly.polyDegree % 2 ^ 32)) ≠
        last * poly.polyDegree := by
  have place : poly.cell (last * poly.polyDegree) (poly.nbModuli - 1) =
      last * (poly.polyDegree * poly.nbModuli) + (poly.nbModuli - 1) * poly.polyDegree := by
    rw [cell_mul]
    ring
  have offset_lt := Nat.mod_lt (i * poly.polyDegree * poly.nbModuli) (Nat.two_pow_pos 32)
  have component_le : copied * poly.polyDegree % 2 ^ 32 ≤
      (poly.nbModuli - 1) * poly.polyDegree :=
    (Nat.mod_le _ _).trans (Nat.mul_le_mul_right _ (by omega))
  have degree_lt := poly.component_lt several
  intro same
  rcases Nat.lt_or_ge (last * poly.polyDegree) (2 ^ 32) with short | long
  · rcases Nat.lt_succ_iff_lt_or_eq.mp i_lt with before | rfl
    · have step : (i + 1) * poly.polyDegree ≤ last * poly.polyDegree :=
        Nat.mul_le_mul_right _ before
      rw [Nat.succ_mul] at step
      rw [Nat.mod_eq_of_lt (a := i * poly.polyDegree) (by omega)] at same
      omega
    · rw [Nat.mod_eq_of_lt short] at same
      omega
  · have twice : 2 * (last * poly.polyDegree) ≤ last * (poly.polyDegree * poly.nbModuli) := by
      rw [mul_comm 2 (last * poly.polyDegree), ← mul_assoc last]
      exact Nat.mul_le_mul_left _ several
    omega

/--
With larger offsets, the last polynomial is not copied for the last prime: if only
its first coefficient is not zero, zero is all that reaches the place of that one.
-/
theorem copyPolynomials_last {splitData : ℕ → ℕ} {fuel last : ℕ} {outdata : ℕ → ℕ}
    (several : 1 < poly.nbModuli)
    (exceeds : 2 ^ 32 ≤ last * (poly.polyDegree * poly.nbModuli))
    (zero : ∀ k, k ≠ last * poly.polyDegree → splitData k = 0)
    (returns : poly.copyPolynomials fuel splitData (last + 1) = some outdata) :
    outdata (poly.cell (last * poly.polyDegree) (poly.nbModuli - 1)) = 0 := by
  rw [copyPolynomials] at returns
  rcases Option.map_eq_some_iff.mp returns with ⟨final, runs, rfl⟩
  apply whileLoop_invariant (fun state : CopyState =>
    state.outdata (poly.cell (last * poly.polyDegree) (poly.nbModuli - 1)) = 0) _ _ runs
  · intro state next holds continues steps
    have i_lt : state.i < last + 1 := of_decide_eq_true continues
    rw [← Option.some.inj steps]
    refine forLoop_induction _ _ _ (fun (_ : ℕ) (outdata : ℕ → ℕ) =>
      outdata (poly.cell (last * poly.polyDegree) (poly.nbModuli - 1)) = 0) holds ?_
    intro copied outdata copied_lt before
    rw [memcpy_apply]
    split
    next inside =>
      apply zero
      exact wrapped_ne several exceeds i_lt copied_lt inside.1 inside.2
    next => exact before
  · rfl

end Copies

section Ciphertexts

/-- The bits of a coefficient, in whole words. -/
def getModulusRepresentationBitsize : ℕ :=
  (poly.nbModuli * NFLlib.kModulusBitsize ⌈/⌉ 64) * 64

def getCiphertextBitsize : ℕ :=
  poly.getModulusRepresentationBitsize * poly.polyDegree * 2

theorem getCiphertextBitsize_eq : poly.getCiphertextBitsize =
    128 * ((poly.nbModuli * NFLlib.kModulusBitsize ⌈/⌉ 64) * poly.polyDegree) := by
  rw [getCiphertextBitsize, getModulusRepresentationBitsize]
  ring

theorem getCiphertextBitsize_bounds :
    128 ≤ poly.getCiphertextBitsize ∧ poly.getCiphertextBitsize < 2 ^ 64 := by
  have nbModuli_pos := poly.nbModuli_pos
  have nbModuli_le := poly.nbModuli_le
  have degree_pos := poly.polyDegree_pos
  have degree_le := poly.polyDegree_le
  rw [NFLlib.kMaxPolyDegree] at degree_le
  rw [NFLlib.kMaxNbModuli] at nbModuli_le
  rw [getCiphertextBitsize_eq, Nat.ceilDiv_eq_add_pred_div, NFLlib.kModulusBitsize]
  have words_pos : 1 ≤ (poly.nbModuli * 60 + 64 - 1) / 64 := by omega
  have words_le : (poly.nbModuli * 60 + 64 - 1) / 64 ≤ 16 := by omega
  constructor <;> nlinarith

/-- The shape of the import of a number of ciphertexts. -/
def ciphertexts (count : ℕ) {bitsPerChunk : ℕ} (chunk_pos : 0 < bitsPerChunk) : SplitShape where
  nbrOfBuffers := count
  bytesPerBuffer := poly.getCiphertextBitsize / 8
  bitsPerChunk := bitsPerChunk
  chunk_pos := chunk_pos
  wide := by
    have bounds := poly.getCiphertextBitsize_bounds
    omega
  bits_lt := by
    have bounds := poly.getCiphertextBitsize_bounds
    omega

theorem ciphertexts_bitsPerBuffer (count : ℕ) {bitsPerChunk : ℕ} (chunk_pos : 0 < bitsPerChunk) :
    (poly.ciphertexts count chunk_pos).bitsPerBuffer = poly.getCiphertextBitsize := by
  have size_eq := poly.getCiphertextBitsize_eq
  rw [SplitShape.bitsPerBuffer]
  change 8 * (poly.getCiphertextBitsize / 8) = poly.getCiphertextBitsize
  omega

end Ciphertexts

section Exactness

variable {poly shape}

theorem subchunk_eq_chunk (single : shape.intUint64PerChunk = 1) (buffers : ℕ → ℤ → UInt8)
    (k : ℕ) : shape.subchunk buffers k = chunk shape buffers k := by
  rw [← concatenate_subchunk, single]
  simp [concatenate]

theorem intUint64PerChunk_le (chunk_le : shape.bitsPerChunk ≤ 448) :
    shape.intUint64PerChunk ≤ 8 := by
  rw [SplitShape.intUint64PerChunk, subchunkCount]
  omega

/-- Every bit string that fits is the contents of some buffers. -/
theorem exists_bits_eq (shape : SplitShape) {value : ℕ} (value_lt : value < 2 ^ totalBits shape) :
    ∃ buffers, shape.bits buffers = value := by
  refine ⟨fun bufferIndex pointer =>
    UInt8.ofNat (value >>> (8 * (bufferIndex * shape.bytesPerBuffer + pointer.toNat))), ?_⟩
  apply Nat.eq_of_testBit_eq
  intro position
  have bits_eq : totalBits shape = 8 * (shape.nbrOfBuffers * shape.bytesPerBuffer) :=
    Nat.mul_left_comm _ _ _
  rw [SplitShape.bits, testBit_littleEndian, ← bits_eq]
  by_cases inside : position < totalBits shape
  · rw [Int.toNat_natCast, Nat.div_add_mod', UInt8.toNat_ofNat', Nat.testBit_mod_two_pow,
      Nat.testBit_shiftRight, Nat.div_add_mod]
    simp [inside, Nat.mod_lt]
  · have beyond : value < 2 ^ position :=
      value_lt.trans_le (Nat.pow_le_pow_right (by decide) (not_lt.mp inside))
    simp [inside, Nat.testBit_lt_two_pow beyond]

/-- The chunks of a bit string in which only the first bit of one chunk is set. -/
theorem chunk_single {buffers : ℕ → ℤ → UInt8} {marked : ℕ}
    (bits_eq : shape.bits buffers = 2 ^ (marked * shape.bitsPerChunk)) (k : ℕ) :
    chunk shape buffers k = if k = marked then 1 else 0 := by
  have chunk_pos := shape.chunk_pos
  rw [chunk, bits_eq]
  rcases lt_trichotomy k marked with before | rfl | after
  · have apart : k * shape.bitsPerChunk + shape.bitsPerChunk ≤ marked * shape.bitsPerChunk := by
      rw [← Nat.succ_mul]
      exact Nat.mul_le_mul_right _ before
    rw [if_neg before.ne, bitSlice, Nat.pow_div (by omega) (by decide)]
    exact Nat.mod_eq_zero_of_dvd (pow_dvd_pow 2 (by omega))
  · rw [if_pos rfl, bitSlice, Nat.div_self (Nat.two_pow_pos _)]
    exact Nat.mod_eq_of_lt (Nat.one_lt_two_pow chunk_pos.ne')
  · rw [if_neg after.ne']
    apply bitSlice_eq_zero
    exact Nat.pow_lt_pow_right (by decide) (Nat.mul_lt_mul_of_pos_right after chunk_pos)

theorem holdsChunks_of_sums (fits : poly.CountersFit shape) {buffers : ℕ → ℤ → UInt8}
    (sums : 1 < shape.intUint64PerChunk → ∀ k, ∀ cm < poly.nbModuli,
      crtSum (shape.subchunk buffers) shape.intUint64PerChunk k (moduli cm) < 2 ^ 64) {fuel : ℕ}
    (enough : 2 * shape.bitsPerBuffer + 65 + totalNbChunks shape + poly.polyNumber shape < fuel) :
    ∃ outdata, poly.bitsplitter shape fuel buffers = some outdata ∧
      poly.HoldsChunks shape buffers outdata := by
  rcases shape.splitBuffers_eq buffers fuel (by omega) with ⟨state, splits, data⟩
  rw [bitsplitter, splits, Option.bind_some, bsFinish]
  rw [CountersFit] at fits
  have data_eq : state.splitData = shape.subchunk buffers := funext data
  split
  next long =>
    rw [if_pos long] at fits
    rcases poly.internalLongIntegersToCRT_eq state.splitData fuel fits (by omega) with
      ⟨outdata, runs, values⟩
    refine ⟨outdata, runs, ?_, ?_⟩
    · intro k inside
      refine ⟨lt_polyNumber inside, fun cm cm_lt => ?_⟩
      have before : k < totalNbChunks shape := by
        rwa [← not_le, totalNbChunks_le_iff, not_le]
      rw [values k cm cm_lt, if_pos before, ← concatenate_subchunk, data_eq,
        Nat.mod_eq_of_lt (sums long k cm cm_lt)]
      exact crtSum_modEq _ _ _ _
    · intro k _ beyond cm cm_lt
      have after := (totalNbChunks_le_iff k).mpr beyond
      rw [values k cm cm_lt, if_neg (not_lt.mpr after)]
  next short =>
    have single : shape.intUint64PerChunk = 1 := by
      have count_pos := shape.intUint64PerChunk_pos
      omega
    rw [if_neg short] at fits
    split
    next several =>
      have offsets := fits.resolve_left (by omega)
      rcases poly.copyPolynomials_eq state.splitData fuel several offsets (by omega)
        with ⟨outdata, runs, values⟩
      refine ⟨outdata, runs, ?_, ?_⟩
      · intro k inside
        refine ⟨lt_polyNumber inside, fun cm cm_lt => ?_⟩
        rw [values k (lt_polyNumber inside) cm cm_lt, data_eq, subchunk_eq_chunk single]
      · intro k k_lt beyond cm cm_lt
        rw [values k k_lt cm cm_lt, data_eq, subchunk_eq_chunk single,
          chunk_eq_zero buffers beyond]
    next alone =>
      have one : poly.nbModuli = 1 := by
        have nbModuli_pos := poly.nbModuli_pos
        omega
      have place : ∀ k, ∀ cm < poly.nbModuli, poly.cell k cm = k := by
        intro k cm cm_lt
        rw [cell, one, mul_one, (by omega : cm = 0), add_zero, Nat.div_add_mod']
      refine ⟨_, rfl, ?_, ?_⟩
      · intro k inside
        refine ⟨lt_polyNumber inside, fun cm cm_lt => ?_⟩
        rw [place k cm cm_lt, data_eq, subchunk_eq_chunk single]
      · intro k _ beyond cm cm_lt
        rw [place k cm cm_lt, data_eq, subchunk_eq_chunk single, chunk_eq_zero buffers beyond]

/-- All coefficients are congruent to their chunks, those after the last one to zero. -/
theorem HoldsChunks.modEq {buffers : ℕ → ℤ → UInt8} {outdata : ℕ → ℕ}
    (holds : poly.HoldsChunks shape buffers outdata) {k cm : ℕ}
    (k_lt : k < poly.polyNumber shape * poly.polyDegree) (cm_lt : cm < poly.nbModuli) :
    outdata (poly.cell k cm) ≡ chunk shape buffers k [MOD moduli cm] := by
  rcases Nat.lt_or_ge (k * shape.bitsPerChunk) (totalBits shape) with inside | beyond
  · exact (holds.coefficient k inside).2 cm cm_lt
  · rw [holds.padding k k_lt beyond cm cm_lt, chunk_eq_zero buffers beyond]

theorem splitsExactly_of_sums (fits : poly.CountersFit shape) {buffers : ℕ → ℤ → UInt8}
    (sums : 1 < shape.intUint64PerChunk → ∀ k, ∀ cm < poly.nbModuli,
      crtSum (shape.subchunk buffers) shape.intUint64PerChunk k (moduli cm) < 2 ^ 64) :
    poly.SplitsExactly shape buffers :=
  ⟨_, holdsChunks_of_sums fits sums (Nat.lt_succ_self _)⟩

theorem bitsplitter_of_forall (holds : ℕ → Prop) {buffers : ℕ → ℤ → UInt8} {fuel : ℕ}
    {outdata : ℕ → ℕ} (short : ¬ 1 < shape.intUint64PerChunk) (zero : holds 0)
    (all : ∀ k, holds (chunk shape buffers k))
    (returns : poly.bitsplitter shape fuel buffers = some outdata) (index : ℕ) :
    holds (outdata index) := by
  have single : shape.intUint64PerChunk = 1 := by
    have count_pos := shape.intUint64PerChunk_pos
    omega
  rcases Option.bind_eq_some_iff.mp returns with ⟨state, splits, finishes⟩
  have words : ∀ k, holds (state.splitData k) := fun k => by
    rw [SplitShape.splitBuffers_data splits, subchunk_eq_chunk single]
    exact all k
  rw [bsFinish, if_neg short] at finishes
  split at finishes
  · exact copyPolynomials_of_forall zero words finishes index
  · rw [← Option.some.inj finishes]
    exact words index

theorem bitsplitter_long_apply {buffers : ℕ → ℤ → UInt8} {fuel : ℕ} {outdata : ℕ → ℕ}
    (long : 1 < shape.intUint64PerChunk)
    (returns : poly.bitsplitter shape fuel buffers = some outdata) (k : ℕ) {cm : ℕ}
    (cm_lt : cm < poly.nbModuli) :
    outdata (poly.cell k cm) = if k < totalNbChunks shape then
      crtSum (shape.subchunk buffers) shape.intUint64PerChunk k (moduli cm) % 2 ^ 64 else 0 := by
  rcases Option.bind_eq_some_iff.mp returns with ⟨state, splits, finishes⟩
  have data : state.splitData = shape.subchunk buffers :=
    funext (SplitShape.splitBuffers_data splits)
  rw [bsFinish, if_pos long, data] at finishes
  have total_lt : totalNbChunks shape < 2 ^ 32 := by
    by_contra exceeds
    rw [internalLongIntegersToCRT_eq_none (not_lt.mp exceeds)] at finishes
    exact absurd finishes (by simp)
  rcases poly.internalLongIntegersToCRT_eq (shape.subchunk buffers)
    (fuel + totalNbChunks shape + 1) total_lt (by omega) with ⟨result, runs, values⟩
  rw [internalLongIntegersToCRT] at finishes runs
  rcases Option.map_eq_some_iff.mp finishes with ⟨final, ends, rfl⟩
  rw [whileLoop_mono (fun _ _ same => same) (by omega) ends] at runs
  rw [← values k cm cm_lt, ← Option.some.inj runs]

/-- Of a short bit string, the first part of the first chunk is all that is left to add. -/
theorem crtSum_of_bits_lt {buffers : ℕ → ℤ → UInt8} (long : 1 < shape.intUint64PerChunk)
    (bits_lt : shape.bits buffers < 2 ^ 56) (k p : ℕ) :
    crtSum (shape.subchunk buffers) shape.intUint64PerChunk k p =
      if k = 0 then shape.bits buffers % p else 0 := by
  have first_size : shape.subchunkSizes 0 = 56 := if_pos (by rwa [Nat.zero_add])
  have first : shape.subchunk buffers 0 = shape.bits buffers := by
    rw [SplitShape.subchunk, shape.start_zero, Nat.zero_mod, first_size, bitSlice, pow_zero,
      Nat.div_one, Nat.mod_eq_of_lt bits_lt]
  have later : ∀ index, 0 < index → shape.subchunk buffers index = 0 := by
    intro index index_pos
    have second : shape.start 1 = 56 := by
      rw [← Nat.zero_add 1, shape.start_succ, shape.start_zero, Nat.zero_mod, first_size]
    have start_ge : 56 ≤ shape.start index :=
      second.ge.trans (shape.start_strictMono.monotone index_pos)
    exact bitSlice_eq_zero (bits_lt.trans_le (Nat.pow_le_pow_right (by decide) start_ge)) _
  have vanishes : ∀ index, 0 < index → ∀ y,
      NFLlib.mulmod (shape.subchunk buffers index) y p = 0 := by
    intro index index_pos y
    rw [later index index_pos, NFLlib.mulmod, Nat.zero_mul, Nat.zero_mod]
  rw [crtSum]
  split
  next start =>
    subst start
    rw [sum_eq_single_of_mem 0 (mem_range.mpr shape.intUint64PerChunk_pos)]
    · rw [Nat.zero_mul, first, NFLlib.mulmod, multiplier, Nat.mul_one]
    · intro j _ other
      exact vanishes _ (by omega) _
  next other =>
    apply sum_eq_zero
    intro j _
    apply vanishes
    exact Nat.add_pos_left (Nat.mul_pos (Nat.pos_of_ne_zero other) shape.intUint64PerChunk_pos) j

theorem splitsExactly_of_countersFit (chunk_le : shape.bitsPerChunk ≤ 448)
    (fits : poly.CountersFit shape) (buffers : ℕ → ℤ → UInt8) :
    poly.SplitsExactly shape buffers :=
  splitsExactly_of_sums fits fun _ k _ cm_lt =>
    crtSum_lt _ (intUint64PerChunk_le chunk_le) k cm_lt

/-- An import of long chunks that ends has been able to count them. -/
theorem SplitsExactly.totalNbChunks_lt {buffers : ℕ → ℤ → UInt8}
    (exact : poly.SplitsExactly shape buffers) (long : 1 < shape.intUint64PerChunk) :
    totalNbChunks shape < 2 ^ 32 := by
  by_contra exceeds
  rcases exact with ⟨fuel, outdata, returns, _⟩
  rcases Option.bind_eq_some_iff.mp returns with ⟨state, _, finishes⟩
  rw [bsFinish, if_pos long, internalLongIntegersToCRT_eq_none (not_lt.mp exceeds)] at finishes
  exact absurd finishes (by simp)

theorem countersFit_of_splitsExactly
    (exact : ∀ buffers, poly.SplitsExactly shape buffers) : poly.CountersFit shape := by
  rw [CountersFit]
  split
  next long => exact (exact fun _ _ => 0).totalNbChunks_lt long
  next short =>
    by_contra fails
    rcases not_or.mp fails with ⟨not_one, exceeds⟩
    have several : 1 < poly.nbModuli := by
      have nbModuli_pos := poly.nbModuli_pos
      omega
    have number_pos : 0 < poly.polyNumber shape := by
      rcases Nat.eq_zero_or_pos (poly.polyNumber shape) with none | some
      · rw [none, Nat.zero_sub, Nat.zero_mul] at exceeds
        exact absurd (Nat.two_pow_pos 32) exceeds
      · exact some
    have single : shape.intUint64PerChunk = 1 := by
      have count_pos := shape.intUint64PerChunk_pos
      omega
    rcases Nat.exists_eq_succ_of_ne_zero number_pos.ne' with ⟨last, number_eq⟩
    rw [number_eq, Nat.succ_sub_one, not_lt] at exceeds
    have inside : last * poly.polyDegree * shape.bitsPerChunk < totalBits shape := by
      rw [← not_le, ← polyNumber_le_iff, number_eq]
      omega
    rcases exists_bits_eq shape (Nat.pow_lt_pow_right (by decide) inside)
      with ⟨buffers, bits_eq⟩
    rcases exact buffers with ⟨fuel, outdata, returns, holds⟩
    rcases Option.bind_eq_some_iff.mp returns with ⟨state, splits, finishes⟩
    rw [bsFinish, if_neg short, if_pos several, number_eq] at finishes
    have data : ∀ k, state.splitData k = if k = last * poly.polyDegree then 1 else 0 := by
      intro k
      rw [SplitShape.splitBuffers_data splits, subchunk_eq_chunk single, chunk_single bits_eq]
    have lost := copyPolynomials_last several exceeds
      (fun k other => by rw [data, if_neg other]) finishes
    have component : poly.nbModuli - 1 < poly.nbModuli := by omega
    have kept := (holds.coefficient (last * poly.polyDegree) inside).2 _ component
    rw [lost, chunk_single bits_eq, if_pos rfl, Nat.ModEq, Nat.zero_mod,
      Nat.mod_eq_of_lt (moduli_gt component)] at kept
    exact absurd kept (by decide)

/--
The import is exact for all contents of the buffers if and only if its 32-bit
counters suffice for their size. Chunks longer than 56 bits make no difference
between contents: either all buffers of a size are imported exactly, or none.
-/
theorem bitsplitter_iff (poly : PolyShape) (shape : SplitShape)
    (chunk_le : shape.bitsPerChunk ≤ 448) :
    ((∀ buffers, poly.SplitsExactly shape buffers) ↔ poly.CountersFit shape) ∧
      (1 < shape.intUint64PerChunk →
        ∀ buffers, poly.SplitsExactly shape buffers ↔ poly.CountersFit shape) := by
  refine ⟨⟨countersFit_of_splitsExactly, splitsExactly_of_countersFit chunk_le⟩, ?_⟩
  intro long buffers
  constructor
  · intro exact
    rw [CountersFit, if_pos long]
    exact exact.totalNbChunks_lt long
  · intro fits
    exact splitsExactly_of_countersFit chunk_le fits buffers

/-- Ten bytes in chunks of 60 bits, for polynomials of degree 1024 with two primes. -/
theorem bitsplitter_iff_tenBytes :
    PolyShape.SplitsExactly ⟨1024, 2, by decide, by decide, by decide, by decide⟩
      ⟨1, 10, 60, by decide, by decide, by decide⟩ (fun _ _ => 255) := by
  refine ((bitsplitter_iff ⟨1024, 2, by decide, by decide, by decide, by decide⟩
    ⟨1, 10, 60, by decide, by decide, by decide⟩ (by decide)).1.mpr ?_) _
  decide

/--
A buffer of `2 ^ 32` chunks of 57 bits, about 30 gigabytes, is never imported: the
counter of `internalLongIntegersToCRT` does not reach the number of chunks.
-/
theorem not_splitsExactly_large :
    ¬ PolyShape.SplitsExactly ⟨1024, 1, by decide, by decide, by decide, by decide⟩
      ⟨1, 57 * 2 ^ 29, 57, by decide, by decide, by decide⟩
      (fun _ _ => 0) := by
  intro exact
  have bound := exact.totalNbChunks_lt (by decide)
  rw [← Nat.le_pred_iff_lt (by decide), totalNbChunks_le_iff] at bound
  exact absurd bound (by decide)

end Exactness

end PolyShape

end Xpir
