import Xpir.Foundations.Rounding
import Xpir.QueryGen.PIRQueryGenerator

/-!
# Replies

The server absorbs the database one dimension at a time. At each level the elements
are taken in blocks of as many as the dimension has coordinates, and each block is
multiplied with the queries of the dimension and summed up, polynomial by
polynomial. The resulting ciphertexts are cut into polynomials again, and are the
elements of the next level.

The sum is computed in rounds of 200 elements whose offset is an `unsigned int`. In
the last round of the first level, a request may be subtracted. For dimensions of
more than 4294967200 coordinates the offset wraps around, and the loop goes over
the block again.
-/

namespace Xpir

/-- The operations of a cryptosystem that the server uses. -/
structure LatticesBasedCryptosystem (Poly Cipher : Type) where
  zero : Cipher
  mulandadd : Cipher → Poly → Cipher → Cipher
  sub : Cipher → Cipher → Cipher
  /-- A polynomial of those that a number of ciphertexts is cut into. -/
  deserializeDataNFL : (ℕ → Cipher) → ℕ → ℕ → Poly
  absorptionBitsize : ℕ
  ciphertextBitsize : ℕ

/-- The largest number of coordinates for which the offset of a round does not wrap around. -/
def maxQuerySize : ℕ := 4294967200

namespace LatticesBasedCryptosystem

variable {Poly Cipher : Type} (crypto : LatticesBasedCryptosystem Poly Cipher)

structure AbsorptionState (Cipher : Type) where
  offset : ℕ
  result : Cipher

/-- A sum of products of data and queries, added to a ciphertext. -/
def absorbRange (data : ℕ → Poly) (queries : ℕ → Cipher) (first count : ℕ) (result : Cipher) :
    Cipher :=
  forLoop count (fun ggg result =>
    crypto.mulandadd result (data (first + ggg)) (queries (first + ggg))) result

/-- A round of the loop on one polynomial. -/
def absorbRound (querySize : ℕ) (data : ℕ → Poly) (queries : ℕ → Cipher)
    (subtract : Option Cipher) (state : AbsorptionState Cipher) : AbsorptionState Cipher :=
  let result := crypto.absorbRange data queries state.offset (min 200 (querySize - state.offset))
    state.result
  let offset := (state.offset + 200) % 2 ^ 32
  match subtract with
  | some request =>
      { offset := offset
        result := if querySize ≤ offset then crypto.sub result request else result }
  | none => { offset := offset, result := result }

/-- The loop on one polynomial of one block. -/
def absorb (fuel querySize : ℕ) (data : ℕ → Poly) (queries : ℕ → Cipher)
    (subtract : Option Cipher) : Option Cipher :=
  (whileLoop (fun state => state.offset < querySize)
    (fun state => some (crypto.absorbRound querySize data queries subtract state)) fuel
    { offset := 0, result := crypto.zero }).map AbsorptionState.result

/-- What the loop is meant to compute. -/
def absorbed (querySize : ℕ) (data : ℕ → Poly) (queries : ℕ → Cipher)
    (subtract : Option Cipher) : Cipher :=
  let result := crypto.absorbRange data queries 0 querySize crypto.zero
  match subtract with
  | some request => crypto.sub result request
  | none => result

section Absorption

variable {querySize : ℕ} {data : ℕ → Poly} {queries : ℕ → Cipher}

theorem absorbRange_add (first count more : ℕ) (result : Cipher) :
    crypto.absorbRange data queries first (count + more) result =
      crypto.absorbRange data queries (first + count) more
        (crypto.absorbRange data queries first count result) := by
  simp only [absorbRange, forLoop_add, Nat.add_assoc]

/-- The invariant of the loop: what has been absorbed, and with the last round the request. -/
structure Absorbing (querySize : ℕ) (data : ℕ → Poly) (queries : ℕ → Cipher)
    (subtract : Option Cipher) (state : AbsorptionState Cipher) : Prop where
  offset_lt : state.offset < querySize + 200
  aligned : state.offset % 200 = 0
  running : state.offset < querySize →
    state.result = crypto.absorbRange data queries 0 state.offset crypto.zero
  done : querySize ≤ state.offset → state.result = crypto.absorbed querySize data queries subtract

variable {crypto} {subtract : Option Cipher}

theorem Absorbing.step {state : AbsorptionState Cipher}
    (holds : crypto.Absorbing querySize data queries subtract state)
    (size_le : querySize ≤ maxQuerySize) (continues : state.offset < querySize) :
    crypto.Absorbing querySize data queries subtract
        (crypto.absorbRound querySize data queries subtract state) ∧
      (crypto.absorbRound querySize data queries subtract state).offset = state.offset + 200 := by
  have aligned := holds.aligned
  have next : (state.offset + 200) % 2 ^ 32 = state.offset + 200 := by
    rw [maxQuerySize] at size_le
    omega
  have absorbs : ∀ count, crypto.absorbRange data queries state.offset count state.result =
      crypto.absorbRange data queries 0 (state.offset + count) crypto.zero := by
    intro count
    rw [absorbRange_add, Nat.zero_add, holds.running continues]
  cases subtract with
  | none =>
      simp only [absorbRound, next, absorbs]
      refine ⟨⟨?_, ?_, ?_, ?_⟩, trivial⟩
      · dsimp only
        omega
      · dsimp only
        omega
      · intro unfinished
        dsimp only at unfinished ⊢
        rw [Nat.min_eq_left (by omega)]
      · intro finished
        dsimp only at finished ⊢
        rw [Nat.min_eq_right (by omega), Nat.add_sub_cancel' continues.le, absorbed]
  | some request =>
      simp only [absorbRound, next, absorbs]
      refine ⟨⟨?_, ?_, ?_, ?_⟩, trivial⟩
      · dsimp only
        omega
      · dsimp only
        omega
      · intro unfinished
        dsimp only at unfinished ⊢
        rw [if_neg (not_le.mpr unfinished), Nat.min_eq_left (by omega)]
      · intro finished
        dsimp only at finished ⊢
        rw [if_pos finished, Nat.min_eq_right (by omega), Nat.add_sub_cancel' continues.le, absorbed]

/-- Up to 4294967200 coordinates, the rounds add up, and the request is subtracted once. -/
theorem absorb_eq (fuel : ℕ) (size_pos : 0 < querySize) (size_le : querySize ≤ maxQuerySize)
    (enough : querySize < fuel) :
    crypto.absorb fuel querySize data queries subtract =
      some (crypto.absorbed querySize data queries subtract) := by
  have initial : crypto.Absorbing querySize data queries subtract
      { offset := 0, result := crypto.zero } :=
    ⟨by dsimp only; omega, rfl, fun _ => rfl, fun finished => absurd size_pos (not_lt.mpr finished)⟩
  rcases whileLoop_total (fun state : AbsorptionState Cipher => state.offset < querySize)
    (fun state => some (crypto.absorbRound querySize data queries subtract state))
    (crypto.Absorbing querySize data queries subtract) (fun state => querySize - state.offset)
    (by
      intro state holds continues
      have unfinished : state.offset < querySize := of_decide_eq_true continues
      rcases holds.step size_le unfinished with ⟨nextHolds, advances⟩
      exact ⟨_, rfl, nextHolds, by omega⟩)
    fuel _ initial (by dsimp only; omega) with ⟨final, runs, holds, stops⟩
  have finished : querySize ≤ final.offset := not_lt.mp (of_decide_eq_false stops)
  rw [absorb, runs, Option.map_some, holds.done finished]

theorem eq_absorbed {fuel : ℕ} {result : Cipher} (size_pos : 0 < querySize)
    (size_le : querySize ≤ maxQuerySize)
    (returns : crypto.absorb fuel querySize data queries subtract = some result) :
    result = crypto.absorbed querySize data queries subtract := by
  rcases Option.map_eq_some_iff.mp returns with ⟨final, runs, rfl⟩
  have initial : crypto.Absorbing querySize data queries subtract
      { offset := 0, result := crypto.zero } :=
    ⟨by dsimp only; omega, rfl, fun _ => rfl, fun finished => absurd size_pos (not_lt.mpr finished)⟩
  have holds := whileLoop_invariant (crypto.Absorbing querySize data queries subtract)
    (by
      intro state next current continues steps
      rw [← Option.some.inj steps]
      exact (current.step size_le (of_decide_eq_true continues)).1)
    initial runs
  have stops := whileLoop_stops runs
  exact holds.done (not_lt.mp (of_decide_eq_false stops))

/-- The sum over a list of elements, in the order in which they are absorbed. -/
def absorbList (crypto : LatticesBasedCryptosystem Poly Cipher) (data : ℕ → Poly)
    (queries : ℕ → Cipher) (indices : List ℕ) : Cipher :=
  indices.foldl (fun rop k => crypto.mulandadd rop (data k) (queries k)) crypto.zero

/-- The request is subtracted from the sum, if there is one. -/
def subtracted (crypto : LatticesBasedCryptosystem Poly Cipher) (subtract : Option Cipher)
    (result : Cipher) : Cipher :=
  match subtract with
  | some request => crypto.sub result request
  | none => result

theorem absorbed_eq (querySize : ℕ) (data : ℕ → Poly) (queries : ℕ → Cipher)
    (subtract : Option Cipher) :
    crypto.absorbed querySize data queries subtract =
      crypto.subtracted subtract (crypto.absorbRange data queries 0 querySize crypto.zero) := by
  cases subtract <;> rfl

theorem absorbRange_absorbList (data : ℕ → Poly) (queries : ℕ → Cipher) (first count : ℕ)
    (indices : List ℕ) :
    crypto.absorbRange data queries first count (crypto.absorbList data queries indices) =
      crypto.absorbList data queries (indices ++ List.range' first count) := by
  induction count with
  | zero => rw [List.range'_zero, List.append_nil]; rfl
  | succ count ih =>
      rw [absorbRange_add, ih, List.range'_concat, ← List.append_assoc, Nat.one_mul]
      simp only [absorbList, absorbRange, List.foldl_append, List.foldl_cons, List.foldl_nil]
      rfl

theorem absorbRange_zero (data : ℕ → Poly) (queries : ℕ → Cipher) (count : ℕ) :
    crypto.absorbRange data queries 0 count crypto.zero =
      crypto.absorbList data queries (List.range count) := by
  rw [List.range_eq_range']
  exact absorbRange_absorbList data queries 0 count []

theorem absorbRound_offset (state : AbsorptionState Cipher) :
    (crypto.absorbRound querySize data queries subtract state).offset =
      (state.offset + 200) % 2 ^ 32 := by
  cases subtract <;> rfl

/-- With the largest numbers of coordinates, the loop never ends. -/
theorem absorb_eq_none (size_gt : 4294967288 < querySize) (fuel : ℕ) :
    crypto.absorb fuel querySize data queries subtract = none := by
  have step : ∀ state next : AbsorptionState Cipher,
      state.offset % 8 = 0 ∧ state.offset < 2 ^ 32 →
      some (crypto.absorbRound querySize data queries subtract state) = some next →
      next.offset % 8 = 0 ∧ next.offset < 2 ^ 32 := by
    intro state next holds steps
    rw [← Option.some.inj steps, absorbRound_offset]
    omega
  have initial : (⟨0, crypto.zero⟩ : AbsorptionState Cipher).offset % 8 = 0 ∧
      (⟨0, crypto.zero⟩ : AbsorptionState Cipher).offset < 2 ^ 32 :=
    ⟨rfl, Nat.two_pow_pos 32⟩
  rw [absorb, whileLoop_eq_none _ (fun state holds => decide_eq_true (by omega)) step fuel initial]
  rfl

/-- The rounds after which an offset that is not less than the number of coordinates is reached. -/
theorem exists_absorb_of_rounds (size_le : querySize ≤ 4294967288) (rest : ℕ) {rounds : ℕ}
    (rounds_eq : rounds + rest = 493921239) (state : AbsorptionState Cipher)
    (offset_eq : state.offset = 200 * rounds % 2 ^ 32) :
    ∃ final, whileLoop (fun state : AbsorptionState Cipher => state.offset < querySize)
      (fun state => some (crypto.absorbRound querySize data queries subtract state)) (rest + 1)
      state = some final := by
  induction rest generalizing rounds state with
  | zero =>
      refine ⟨state, whileLoop_of_not_guard _ (decide_eq_false ?_)⟩
      rw [offset_eq, ← Nat.add_zero rounds, rounds_eq]
      omega
  | succ rest ih =>
      cases continues : decide (state.offset < querySize) with
      | false => exact ⟨state, whileLoop_of_not_guard _ continues⟩
      | true =>
          have next_offset : (crypto.absorbRound querySize data queries subtract state).offset =
              200 * (rounds + 1) % 2 ^ 32 := by
            rw [absorbRound_offset, offset_eq]
            omega
          rcases ih (by omega) _ next_offset with ⟨final, runs⟩
          refine ⟨final, ?_⟩
          rw [whileLoop, if_pos continues]
          exact runs

/-- Up to 4294967288 coordinates, the loop ends. -/
theorem exists_absorb (size_le : querySize ≤ 4294967288) :
    ∃ result, crypto.absorb (2 ^ 32) querySize data queries subtract = some result := by
  rcases @exists_absorb_of_rounds _ _ crypto querySize data queries subtract size_le 493921239 0 rfl
    ⟨0, crypto.zero⟩ rfl with ⟨final, runs⟩
  refine ⟨final.result, ?_⟩
  rw [absorb, whileLoop_mono (fun _ _ steps => steps) (by decide) runs, Option.map_some]

/-- The invariant of a loop whose offset wraps around: how often the first elements are absorbed. -/
structure Wrapping (rounds offset : ℕ) (indices : List ℕ) : Prop where
  offset_eq : offset = 200 * rounds % 2 ^ 32
  rounds_le : rounds ≤ 493921239
  once : ∀ k < 8, indices.count k = if rounds = 0 then 0 else 1
  eighth : indices.count 8 = (if rounds = 0 then 0 else 1) + if rounds ≤ 42949673 then 0 else 1

/-- The block of a round has one of the first elements if it does not begin behind it. -/
theorem count_block (wide : 200 ≤ querySize) {offset k : ℕ} (k_lt : k < 200)
    (inside : offset < querySize) :
    (List.range' offset (min 200 (querySize - offset))).count k = if offset ≤ k then 1 else 0 := by
  split
  next early =>
    apply List.count_eq_one_of_mem List.nodup_range'
    rw [List.mem_range'_1]
    omega
  next late =>
    apply List.count_eq_zero_of_not_mem
    rw [List.mem_range'_1]
    omega

/-- The number of a round can be read off its offset: 42949673 is the inverse of 25. -/
theorem mul_offset_mod {rounds : ℕ} (rounds_lt : rounds < 2 ^ 29) :
    42949673 * (25 * rounds % 2 ^ 29) % 2 ^ 29 = rounds := by
  rw [Nat.mul_mod_mod, ← Nat.mul_assoc, show 42949673 * 25 = 2 ^ 30 + 1 from rfl]
  omega

theorem Wrapping.step {rounds offset : ℕ} {indices : List ℕ}
    (holds : Wrapping rounds offset indices) (wide : 200 ≤ querySize)
    (size_le : querySize ≤ 4294967288) (inside : offset < querySize) :
    Wrapping (rounds + 1) ((offset + 200) % 2 ^ 32)
      (indices ++ List.range' offset (min 200 (querySize - offset))) := by
  have offset_eq := holds.offset_eq
  have rounds_le := holds.rounds_le
  -- The last of all rounds has an offset that is not inside.
  have rounds_lt : rounds < 493921239 := by omega
  have aligned : offset = 8 * (25 * rounds % 2 ^ 29) := by omega
  have number := @mul_offset_mod rounds (by omega)
  have first : 25 * rounds % 2 ^ 29 = 0 ↔ rounds = 0 := by
    constructor
    · intro zero
      rw [← number, zero]
      rfl
    · rintro rfl
      rfl
  have second : 25 * rounds % 2 ^ 29 = 1 ↔ rounds = 42949673 := by
    constructor
    · intro one
      rw [← number, one]
      rfl
    · rintro rfl
      rfl
  refine ⟨by omega, rounds_lt, ?_, ?_⟩
  all_goals
    clear offset_eq rounds_le rounds_lt number
    generalize 25 * rounds % 2 ^ 29 = place at aligned first second
  · intro k k_lt
    rw [List.count_append, holds.once k k_lt, count_block wide (by omega) inside,
      if_neg (Nat.succ_ne_zero rounds)]
    split <;> split <;> omega
  · rw [List.count_append, holds.eighth, count_block wide (by decide) inside,
      if_neg (Nat.succ_ne_zero rounds)]
    split_ifs <;> omega

/--
Beyond 4294967200 coordinates, if the loop ends at all, then the first eight elements have been
absorbed once and the next one twice.
-/
theorem exists_of_absorb {fuel : ℕ} (size_gt : maxQuerySize < querySize) {result : Cipher}
    (returns : crypto.absorb fuel querySize data queries subtract = some result) :
    ∃ indices : List ℕ, (∀ k < 8, indices.count k = 1) ∧ indices.count 8 = 2 ∧
      result = crypto.subtracted subtract (crypto.absorbList data queries indices) := by
  have size_le : querySize ≤ 4294967288 := by
    by_contra large
    rw [absorb_eq_none (not_le.mp large)] at returns
    exact absurd returns (by simp)
  rw [maxQuerySize] at size_gt
  rcases Option.map_eq_some_iff.mp returns with ⟨final, runs, rfl⟩
  have holds := whileLoop_invariant (fun state : AbsorptionState Cipher =>
    ∃ rounds indices, Wrapping rounds state.offset indices ∧
      state.result = if querySize ≤ state.offset then
        crypto.subtracted subtract (crypto.absorbList data queries indices)
      else crypto.absorbList data queries indices)
    (by
      rintro state next ⟨rounds, indices, wrapping, result_eq⟩ continues steps
      have inside : state.offset < querySize := of_decide_eq_true continues
      rw [if_neg (not_le.mpr inside)] at result_eq
      have sum := @absorbRange_absorbList _ _ crypto data queries state.offset
        (min 200 (querySize - state.offset)) indices
      refine ⟨rounds + 1,
        indices ++ List.range' state.offset (min 200 (querySize - state.offset)), ?_, ?_⟩
      · rw [← Option.some.inj steps, absorbRound_offset]
        exact wrapping.step (by omega) size_le inside
      · rw [← Option.some.inj steps]
        cases subtract with
        | none =>
            simp only [absorbRound, result_eq, sum]
            exact (ite_self _).symm
        | some request =>
            simp only [absorbRound, result_eq, sum]
            rfl)
    ⟨0, [], ⟨rfl, by decide, fun _ _ => rfl, rfl⟩, by
      rw [if_neg (by dsimp only; omega)]
      rfl⟩ runs
  have stops := whileLoop_stops runs
  have finished : querySize ≤ final.offset := not_lt.mp (of_decide_eq_false stops)
  rcases holds with ⟨rounds, indices, wrapping, result_eq⟩
  rw [if_pos finished] at result_eq
  rw [wrapping.offset_eq] at finished
  have rounds_gt : 42949673 < rounds := by
    by_contra few
    have wraps : 200 * rounds / 2 ^ 32 = 0 ∨ 200 * rounds / 2 ^ 32 = 1 ∨
        200 * rounds / 2 ^ 32 = 2 := by omega
    rcases wraps with none | once | twice <;> omega
  refine ⟨indices, ?_, ?_, result_eq⟩
  · intro k k_lt
    rw [wrapping.once k k_lt, if_neg (by omega)]
  · rw [wrapping.eighth, if_neg (by omega), if_neg (by omega)]

end Absorption

section Levels

variable (pirParams : PIRParameters)

/-- The number of polynomials that the given number of ciphertexts is cut into. -/
def reimportNbPolys (nbPolys : ℕ) : ℕ :=
  ⌈toDouble (toDouble (toDouble (nbPolys * crypto.ciphertextBitsize % 2 ^ 64 : ℕ) / 8) /
    toDouble (crypto.absorptionBitsize / 8 : ℕ))⌉₊

/-- The variables of the loop over the levels, with the results of all levels so far. -/
structure ReplyState (Poly Cipher : Type) where
  inData : ℕ → ℕ → Poly
  currentMaxNbPolys : ℕ
  interReply : ℕ → ℕ → ℕ → Cipher

/-- The reply for one block of elements. The index of the polynomial does not wrap here. -/
def replyBlock (fuel : ℕ) (queriesBuf : ℕ → ℕ → Cipher) (subtract : Option (ℕ → Cipher)) (i : ℕ)
    (state : ReplyState Poly Cipher) (j : ℕ) : Option (ℕ → Cipher) :=
  fillLoop state.currentMaxNbPolys (fun poly =>
    crypto.absorb fuel (pirParams.n i) (fun k => state.inData (pirParams.n i * j + k) poly)
      (queriesBuf i) (if i = 0 then subtract.map (fun request => request poly) else none))
    (fun _ => crypto.zero)

def replyLevel (fuel : ℕ) (queriesBuf : ℕ → ℕ → Cipher) (subtract : Option (ℕ → Cipher)) (i : ℕ)
    (state : ReplyState Poly Cipher) : Option (ReplyState Poly Cipher) :=
  (fillLoop (pirParams.nbElements (i + 1))
    (crypto.replyBlock pirParams fuel queriesBuf subtract i state)
    (fun _ _ => crypto.zero)).map fun replies =>
      if i < pirParams.d - 1 then
        { inData := fun element =>
            crypto.deserializeDataNFL (replies element) state.currentMaxNbPolys
          currentMaxNbPolys := crypto.reimportNbPolys state.currentMaxNbPolys
          interReply := Function.update state.interReply i replies }
      else { state with interReply := Function.update state.interReply i replies }

/-- Both versions of `generateReply`: with a request to be subtracted, and without. -/
def generateReply (fuel : ℕ) (queriesBuf : ℕ → ℕ → Cipher) (inputData : ℕ → ℕ → Poly)
    (nbPolys : ℕ) (subtract : Option (ℕ → Cipher)) : Option (ReplyState Poly Cipher) :=
  forLoop pirParams.d
    (fun i state => state.bind (crypto.replyLevel pirParams fuel queriesBuf subtract i))
    (some
      { inData := inputData
        currentMaxNbPolys := nbPolys
        interReply := fun _ _ _ => crypto.zero })

/-- The reply that is sent: the only element of the last level. -/
def repliesArray (state : ReplyState Poly Cipher) : ℕ → Cipher :=
  state.interReply (pirParams.d - 1) 0

/-- The number of polynomials of an element at a level. -/
def levelPolys (nbPolys : ℕ) : ℕ → ℕ
  | 0 => nbPolys
  | i + 1 => crypto.reimportNbPolys (levelPolys nbPolys i)

/-- The elements of a level, given the results of the levels before. -/
def levelData (inputData : ℕ → ℕ → Poly) (nbPolys : ℕ) (interReply : ℕ → ℕ → ℕ → Cipher) :
    ℕ → ℕ → ℕ → Poly
  | 0 => inputData
  | i + 1 => fun element =>
      crypto.deserializeDataNFL (interReply i element) (crypto.levelPolys nbPolys i)

/-- The invariant of the loop over the levels. -/
structure Levels (fuel : ℕ) (queriesBuf : ℕ → ℕ → Cipher) (inputData : ℕ → ℕ → Poly)
    (nbPolys : ℕ) (subtract : Option (ℕ → Cipher)) (count : ℕ) (state : ReplyState Poly Cipher) :
    Prop where
  polys : count < pirParams.d → state.currentMaxNbPolys = crypto.levelPolys nbPolys count
  data : count < pirParams.d → ∀ element < pirParams.nbElements count,
    state.inData element = crypto.levelData inputData nbPolys state.interReply count element
  replies : ∀ i < count, ∀ j < pirParams.nbElements (i + 1), ∀ poly < crypto.levelPolys nbPolys i,
    crypto.absorb fuel (pirParams.n i) (fun k => crypto.levelData inputData nbPolys
      state.interReply i (pirParams.n i * j + k) poly) (queriesBuf i)
      (if i = 0 then subtract.map (fun request => request poly) else none) =
        some (state.interReply i j poly)

variable {crypto pirParams} {fuel : ℕ} {queriesBuf : ℕ → ℕ → Cipher} {inputData : ℕ → ℕ → Poly}
  {nbPolys : ℕ} {subtract : Option (ℕ → Cipher)}

/-- Only the data and queries of its block matter for the loop. -/
theorem absorb_congr {querySize : ℕ} {left right : ℕ → Poly} {queries others : ℕ → Cipher}
    {request : Option Cipher} (agree : ∀ k < querySize, left k = right k ∧ queries k = others k) :
    crypto.absorb fuel querySize left queries request =
      crypto.absorb fuel querySize right others request := by
  rw [absorb, absorb]
  apply congrArg
  apply whileLoop_congr
  intro state continues
  have inside : state.offset < querySize := of_decide_eq_true continues
  have sums : crypto.absorbRange left queries state.offset (min 200 (querySize - state.offset))
      state.result = crypto.absorbRange right others state.offset
        (min 200 (querySize - state.offset)) state.result := by
    apply forLoop_congr
    intro k rop k_lt
    rcases agree (state.offset + k) (by omega) with ⟨same_data, same_query⟩
    rw [same_data, same_query]
  simp only [absorbRound, sums]

/-- Only the queries of the dimensions matter for the server. -/
theorem generateReply_congr {others : ℕ → ℕ → Cipher}
    (agree : ∀ i < pirParams.d, ∀ k < pirParams.n i, queriesBuf i k = others i k) :
    crypto.generateReply pirParams fuel queriesBuf inputData nbPolys subtract =
      crypto.generateReply pirParams fuel others inputData nbPolys subtract := by
  apply forLoop_congr
  intro i reached i_lt
  congr 1
  funext state
  have blocks : crypto.replyBlock pirParams fuel queriesBuf subtract i state =
      crypto.replyBlock pirParams fuel others subtract i state := by
    funext j
    rw [replyBlock, replyBlock]
    congr 1
    funext poly
    exact absorb_congr fun k k_lt => ⟨rfl, agree i i_lt k k_lt⟩
  rw [replyLevel, replyLevel, blocks]

/-- Element `n * j + k` of a level is one of its elements. -/
theorem index_lt {i j k : ℕ} (i_lt : i < pirParams.d) (j_lt : j < pirParams.nbElements (i + 1))
    (k_lt : k < pirParams.n i) : pirParams.n i * j + k < pirParams.nbElements i := by
  rw [pirParams.nbElements_of_lt i_lt]
  calc pirParams.n i * j + k < pirParams.n i * (j + 1) := by
        rw [Nat.mul_succ]
        exact Nat.add_lt_add_left k_lt _
    _ ≤ pirParams.n i * pirParams.nbElements (i + 1) := Nat.mul_le_mul_left _ j_lt

/-- The elements of a level do not depend on the results of later levels. -/
theorem levelData_update {interReply : ℕ → ℕ → ℕ → Cipher} {level i : ℕ} (level_le : level ≤ i)
    (replies : ℕ → ℕ → Cipher) :
    crypto.levelData inputData nbPolys (Function.update interReply i replies) level =
      crypto.levelData inputData nbPolys interReply level := by
  cases level with
  | zero => rfl
  | succ level =>
      simp only [levelData]
      rw [Function.update_of_ne (by omega)]

theorem Levels.step {i : ℕ} {state next : ReplyState Poly Cipher}
    (holds : crypto.Levels pirParams fuel queriesBuf inputData nbPolys subtract i state)
    (i_lt : i < pirParams.d)
    (steps : crypto.replyLevel pirParams fuel queriesBuf subtract i state = some next) :
    crypto.Levels pirParams fuel queriesBuf inputData nbPolys subtract (i + 1) next := by
  rcases Option.map_eq_some_iff.mp steps with ⟨replies, fills, next_eq⟩
  have polys := holds.polys i_lt
  have history : next.interReply = Function.update state.interReply i replies := by
    rw [← next_eq]
    split <;> rfl
  refine ⟨?_, ?_, ?_⟩
  · intro inside
    rw [← next_eq, if_pos (by omega), levelPolys, polys]
  · intro inside element element_lt
    rw [history, levelData, Function.update_self, ← next_eq, if_pos (by omega), polys]
  · intro level level_lt j j_lt poly poly_lt
    rw [history, levelData_update (by omega)]
    rcases Nat.lt_succ_iff_lt_or_eq.mp level_lt with before | rfl
    · rw [Function.update_of_ne before.ne]
      exact holds.replies level before j j_lt poly poly_lt
    · rw [Function.update_self]
      rw [← polys] at poly_lt
      have block := exists_of_fillLoop (exists_of_fillLoop fills j j_lt) poly poly_lt
      rw [← block]
      apply absorb_congr
      intro k k_lt
      rw [holds.data i_lt _ (index_lt i_lt j_lt k_lt)]
      exact ⟨rfl, rfl⟩

/-- Whenever the server ends, each result is the one of the loop over its block. -/
theorem levels_of_generateReply {final : ReplyState Poly Cipher}
    (returns : crypto.generateReply pirParams fuel queriesBuf inputData nbPolys subtract =
      some final) :
    crypto.Levels pirParams fuel queriesBuf inputData nbPolys subtract pirParams.d final := by
  have run : ∀ state,
      crypto.generateReply pirParams fuel queriesBuf inputData nbPolys subtract = some state →
        crypto.Levels pirParams fuel queriesBuf inputData nbPolys subtract pirParams.d state := by
    refine forLoop_induction pirParams.d _ _ (fun count reached => ∀ state, reached = some state →
      crypto.Levels pirParams fuel queriesBuf inputData nbPolys subtract count state) ?_ ?_
    · rintro state ⟨⟩
      exact ⟨fun _ => rfl, fun _ _ _ => rfl, fun i i_lt => absurd i_lt (Nat.not_lt_zero i)⟩
    · intro i reached i_lt earlier next steps
      rcases Option.bind_eq_some_iff.mp steps with ⟨state, reached_eq, replies⟩
      exact (earlier state reached_eq).step i_lt replies
  exact run final returns

/-- No dimension is so large that the rounds of its loop go wrong. -/
def RoundsFit (pirParams : PIRParameters) : Prop := ∀ i < pirParams.d, pirParams.n i ≤ maxQuerySize

theorem exists_generateReply (crypto : LatticesBasedCryptosystem Poly Cipher)
    (queriesBuf : ℕ → ℕ → Cipher) (inputData : ℕ → ℕ → Poly) (nbPolys : ℕ)
    (subtract : Option (ℕ → Cipher)) (fits : RoundsFit pirParams)
    (enough : ∀ i < pirParams.d, pirParams.n i < fuel) :
    ∃ final, crypto.generateReply pirParams fuel queriesBuf inputData nbPolys subtract =
      some final := by
  refine forLoop_induction pirParams.d _ _ (fun _ reached => ∃ state, reached = some state) ?_ ?_
  · exact ⟨_, rfl⟩
  · rintro i _ i_lt ⟨state, rfl⟩
    have blocks : ∀ j < pirParams.nbElements (i + 1), ∃ replies,
        crypto.replyBlock pirParams fuel queriesBuf subtract i state j = some replies := by
      intro j _
      apply exists_fillLoop
      intro poly _
      exact ⟨_, absorb_eq fuel (pirParams.n_pos i i_lt) (fits i i_lt) (enough i i_lt)⟩
    rcases exists_fillLoop blocks (fun _ _ => crypto.zero) with ⟨replies, fills⟩
    exact ⟨_, congrArg (Option.map _) fills⟩

/-- The results of a server that has received the queries of a client. -/
theorem Levels.absorb_received {Coins : Type} {encrypt : Coins → ℕ → ℕ → Cipher}
    {coins : ℕ → ℕ → Coins} {chosenElement : ℕ} {buffer : PIRParameters.QueriesBuffer Cipher}
    (received : pirParams.Received (pirParams.queryElement encrypt coins chosenElement) pirParams.d 0
      buffer) {state : ReplyState Poly Cipher}
    (holds : crypto.Levels pirParams fuel buffer.queriesBuf inputData nbPolys subtract pirParams.d
      state) {i j poly : ℕ} (i_lt : i < pirParams.d) (j_lt : j < pirParams.nbElements (i + 1))
    (poly_lt : poly < crypto.levelPolys nbPolys i) :
    crypto.absorb fuel (pirParams.n i) (fun k => crypto.levelData inputData nbPolys
      state.interReply i (pirParams.n i * j + k) poly)
      (pirParams.queryElement encrypt coins chosenElement i)
      (if i = 0 then subtract.map (fun request => request poly) else none) =
        some (state.interReply i j poly) := by
  rw [← holds.replies i i_lt j j_lt poly poly_lt]
  apply absorb_congr
  intro k k_lt
  exact ⟨rfl, (received.full i i_lt k k_lt).symm⟩

end Levels

end LatticesBasedCryptosystem

end Xpir
