import Xpir.NFLlib.NTT

/-!
# Bounds inside the transform

This file records, in their order, the sums and differences of words that a transform
computes, and states what they are: sums stay below `4 * p`, differences that are
lifted by `2 * p` in advance do too, and the others are negative exactly if their cast
to an `int64_t` is. The recorded run leaves the words of `ntt`.

The words that a pass leaves are below `2 * p` again, for tables of any reduced
entries. What they stand for is then the network with the twiddles of the table.
-/

namespace Xpir

namespace NFLlib

/-- The value of a word cast to an `int64_t`. -/
def asInt64 (word : ℕ) : ℤ :=
  if word < 2 ^ 63 then word else (word : ℤ) - 2 ^ 64

/-- What a butterfly computes of two words. -/
inductive WordOperation where
  /-- `u0 + u1`, from which `2 * p` may be subtracted. -/
  | sum (u0 u1 : ℕ)
  /-- `u0 - u1`, to which `2 * p` is added if it is negative. -/
  | signedDifference (u0 u1 : ℕ)
  /-- `u0 - u1 + 2 * p`, multiplied by a table entry. -/
  | liftedDifference (u0 u1 w wshoup : ℕ)

/-- The operation does not wrap, and its result is a word below `2 * p` with the right residue. -/
def WordOperation.Exact (p : ℕ) : WordOperation → Prop
  | sum u0 u1 =>
      u0 + u1 < 4 * p ∧ lazyAdd u0 u1 p < 2 * p ∧ (lazyAdd u0 u1 p : ZMod p) = u0 + u1
  | signedDifference u0 u1 =>
      asInt64 (wordSub u0 u1) = u0 - u1 ∧ (asInt64 (wordSub u0 u1) < 0 ↔ u0 < u1) ∧
        |(u0 : ℤ) - u1| < 2 * p ∧
          lazySub u0 u1 p < 2 * p ∧ (lazySub u0 u1 p : ZMod p) = u0 - u1
  | liftedDifference u0 u1 w wshoup =>
      ((wordSub u0 u1 + 2 * p) % 2 ^ 64 : ℕ) = (u0 : ℤ) - u1 + 2 * p ∧
        (wordSub u0 u1 + 2 * p) % 2 ^ 64 < 4 * p ∧
          twiddledSub u0 u1 w wshoup p < 2 * p ∧
            (twiddledSub u0 u1 w wshoup p : ZMod p) = (u0 - u1) * w

namespace WordOperation

variable {u0 u1 p : ℕ}

theorem exact_sum (p_lt : p < 2 ^ 62) (u0_lt : u0 < 2 * p) (u1_lt : u1 < 2 * p) :
    (sum u0 u1).Exact p :=
  ⟨by omega, lazyAdd_lt p_lt u0_lt u1_lt, cast_lazyAdd p_lt u0_lt u1_lt⟩

/-- The sign test sees the sign of the integer difference. -/
theorem exact_signedDifference (p_lt : p < 2 ^ 62) (u0_lt : u0 < 2 * p) (u1_lt : u1 < 2 * p) :
    (signedDifference u0 u1).Exact p := by
  have signed : asInt64 (wordSub u0 u1) = u0 - u1 := by
    rw [asInt64, wordSub]
    split <;> omega
  refine ⟨signed, ?_, ?_, lazySub_lt p_lt u0_lt u1_lt, cast_lazySub p_lt u0_lt u1_lt⟩
  · rw [signed]
    omega
  · rw [abs_lt]
    omega

theorem exact_liftedDifference {table : ShoupTable} {index : ℕ} (p_lt : p < 2 ^ 62)
    (u0_lt : u0 < 2 * p) (u1_lt : u1 < 2 * p) (holds : table.Holds p index (table.entry index)) :
    (liftedDifference u0 u1 (table.entry index) (table.shoup index)).Exact p := by
  have lifted : (wordSub u0 u1 + 2 * p) % 2 ^ 64 = u0 + 2 * p - u1 := by
    rw [wordSub]
    omega
  refine ⟨?_, ?_, twiddledSub_lt p_lt u0_lt u1_lt holds, cast_twiddledSub p_lt u0_lt u1_lt holds⟩
  · rw [lifted]
    omega
  · rw [lifted]
    omega

end WordOperation

/-! ## The recorded run -/

/-- The words of a polynomial, with the operations made so far. -/
structure TracedWords where
  words : ℕ → ℕ
  operations : List WordOperation

namespace TracedWords

variable (table : ShoupTable) (p : ℕ) (state : TracedWords)

/-- One butterfly of the main loop. -/
def butterfly (first second i : ℕ) : TracedWords where
  words := nttButterfly table p first second i state.words
  operations := state.operations ++
    [.sum (state.words first) (state.words second),
      .liftedDifference (state.words first) (state.words second) (table.entry i) (table.shoup i)]

/-- One layer of the main loop. -/
def layer (M N : ℕ) : TracedWords :=
  forLoop M (fun r state =>
    forLoop (N / 2) (fun i state => state.butterfly table p (N * r + i) (N * r + i + N / 2) i)
      state) state

/-- The operations of the last two layers on four words. -/
def lastOperations (u0 u1 u2 u3 : ℕ) : List WordOperation :=
  let v0 := lazyAdd u0 u2 p
  let v2 := lazySub u0 u2 p
  let v1 := lazyAdd u1 u3 p
  let v3 := twiddledSub u1 u3 (table.entry 1) (table.shoup 1) p
  [.sum u0 u2, .signedDifference u0 u2, .sum u1 u3,
    .liftedDifference u1 u3 (table.entry 1) (table.shoup 1),
    .sum v0 v1, .signedDifference v0 v1, .sum v2 v3, .signedDifference v2 v3]

/-- The last two layers on the four cells from `start` on. -/
def lastBlock (start : ℕ) : TracedWords where
  words := nttLastBlock table p start state.words
  operations := state.operations ++
    lastOperations table p (state.words start) (state.words (start + 1))
      (state.words (start + 2)) (state.words (start + 3))

/-- One round of the main loop, which also advances the table. -/
def mainRound (K p w : ℕ) (state : TracedWords × ShoupTable) : TracedWords × ShoupTable :=
  let M := 2 ^ w
  let N := K / 2 ^ w
  (state.1.layer state.2 p M N, state.2.drop (N / 2))

end TracedWords

/-- The transform, with a record of its operations. -/
def tracedNtt (x : ℕ → ℕ) (table : ShoupTable) (K p : ℕ) : TracedWords :=
  if K = 1 then ⟨x, []⟩
  else if K = 2 then
    { words := Function.update (Function.update x 0 (lazyAdd (x 0) (x 1) p)) 1
        (lazySub (x 0) (x 1) p)
      operations := [.sum (x 0) (x 1), .signedDifference (x 0) (x 1)] }
  else
    let J := Nat.log2 K - 2
    let main := forLoop J (TracedWords.mainRound K p) (⟨x, []⟩, table)
    forLoop (2 ^ J) (fun r state => state.lastBlock main.2 p (4 * r)) main.1

theorem TracedWords.layer_words (table : ShoupTable) (p : ℕ) (state : TracedWords) (M N : ℕ) :
    (state.layer table p M N).words = nttLayer table M N p state.words := by
  rw [layer, nttLayer]
  apply forLoop_project TracedWords.words
  intro r state _
  apply forLoop_project TracedWords.words
  intro i state _
  rfl

theorem TracedWords.mainRound_words (K p w : ℕ) (state : TracedWords × ShoupTable) :
    ((mainRound K p w state).1.words, (mainRound K p w state).2) =
      (nttLayer state.2 (2 ^ w) (K / 2 ^ w) p state.1.words, state.2.drop (K / 2 ^ w / 2)) := by
  simp only [mainRound, layer_words]

/-- The record does not change the words. -/
theorem tracedNtt_words (x : ℕ → ℕ) (table : ShoupTable) (K p : ℕ) :
    (tracedNtt x table K p).words = ntt x table K p := by
  rw [tracedNtt, ntt]
  split
  · rfl
  · split
    · rfl
    · have main := @forLoop_project _ _ (Nat.log2 K - 2) (TracedWords.mainRound K p)
        (fun w (state : (ℕ → ℕ) × ShoupTable) =>
          (nttLayer state.2 (2 ^ w) (K / 2 ^ w) p state.1, state.2.drop (K / 2 ^ w / 2)))
        (fun state : TracedWords × ShoupTable => (state.1.words, state.2))
        (fun w state _ => TracedWords.mainRound_words K p w state) (⟨x, []⟩, table)
      simp only [← main]
      apply forLoop_project TracedWords.words
      intro r state _
      rfl

/-! ## The number of operations -/

namespace TracedWords

theorem length_butterfly (table : ShoupTable) (p : ℕ) (state : TracedWords)
    (first second i : ℕ) :
    (state.butterfly table p first second i).operations.length =
      state.operations.length + 2 := by
  simp [butterfly]

theorem length_lastBlock (table : ShoupTable) (p : ℕ) (state : TracedWords) (start : ℕ) :
    (state.lastBlock table p start).operations.length = state.operations.length + 8 := by
  simp [lastBlock, lastOperations]

theorem length_layer (table : ShoupTable) (p : ℕ) (state : TracedWords) (M half : ℕ) :
    (state.layer table p M (half + half)).operations.length =
      state.operations.length + M * (half * 2) := by
  have size_half : (half + half) / 2 = half := by omega
  rw [layer, size_half]
  apply forLoop_measure (fun state : TracedWords => state.operations.length)
  intro r state _
  apply forLoop_measure (fun state : TracedWords => state.operations.length)
  intro i state _
  apply length_butterfly

theorem length_mainRound (p : ℕ) {levels w : ℕ} (w_lt : w < levels)
    (state : TracedWords × ShoupTable) :
    (mainRound (2 ^ levels) p w state).1.operations.length =
      state.1.operations.length + 2 ^ levels := by
  simp only [mainRound, two_pow_div_blocks w_lt, length_layer]
  rw [two_pow_eq_blocks w_lt, mul_two]

end TracedWords

/-- Two operations in each of the butterflies of all layers. -/
theorem length_tracedNtt (x : ℕ → ℕ) (table : ShoupTable) (p : ℕ) {levels : ℕ}
    (levels_ge : 2 ≤ levels) :
    (tracedNtt x table (2 ^ levels) p).operations.length = levels * 2 ^ levels := by
  obtain ⟨rest, rfl⟩ := Nat.exists_eq_add_of_le' levels_ge
  have four_le : 2 ^ (rest + 2) = 2 ^ rest * 4 := by ring
  have rest_pos := Nat.two_pow_pos rest
  have main := forLoop_measure (fun state : TracedWords × ShoupTable => state.1.operations.length)
    (fun w state (w_lt : w < rest) =>
      TracedWords.length_mainRound p (show w < rest + 2 by omega) state) (⟨x, []⟩, table)
  rw [tracedNtt, if_neg (by omega), if_neg (by omega)]
  simp only [Nat.log2_two_pow, Nat.add_sub_cancel]
  rw [forLoop_measure (fun state : TracedWords => state.operations.length)
    (fun r state _ => TracedWords.length_lastBlock _ p state (4 * r)), main, four_le]
  simp only [List.length_nil, Nat.zero_add]
  ring

/-! ## The bounds -/

/-- The entries a transform of size `2 ^ levels` has, with exact quotients. -/
def ShoupTable.Reduced (table : ShoupTable) (p levels : ℕ) : Prop :=
  ∀ index, index + 1 < 2 ^ levels →
    table.entry index < p ∧ table.shoup index = table.entry index * 2 ^ 64 / p

theorem ShoupTable.Reduced.holds {table : ShoupTable} {p levels index : ℕ}
    (reduced : table.Reduced p levels) (index_lt : index + 1 < 2 ^ levels) :
    table.Holds p index (table.entry index) := by
  rcases reduced index index_lt with ⟨entry_lt, shoup_eq⟩
  exact ⟨entry_lt, rfl, by rw [shoup_eq, shoupQuotient_of_lt entry_lt]⟩

/-- The entries of a layer lie inside the table. -/
theorem ShoupTable.Reduced.drop_holds {table : ShoupTable} {p levels layer i : ℕ}
    (reduced : table.Reduced p levels) (layer_lt : layer < levels)
    (i_lt : i < 2 ^ (levels - 1 - layer)) :
    (table.drop (2 ^ levels - 2 ^ (levels - layer))).Holds p i
      ((table.drop (2 ^ levels - 2 ^ (levels - layer))).entry i) := by
  have size_le : 2 ^ (levels - layer) ≤ 2 ^ levels :=
    Nat.pow_le_pow_right (by omega) (by omega)
  have halves := two_pow_succ_sub layer_lt
  have entry := reduced.holds
    (show 2 ^ levels - 2 ^ (levels - layer) + i + 1 < 2 ^ levels by omega)
  exact ⟨entry.entry_lt, rfl, entry.shoup_eq⟩

namespace TracedWords

/-- The invariant of the run: all words are below `2 * p` and no operation has wrapped. -/
structure Sound (p size : ℕ) (state : TracedWords) : Prop where
  below : ∀ cell < size, state.words cell < 2 * p
  exact : ∀ operation ∈ state.operations, operation.Exact p

section Steps

variable {table : ShoupTable} {p size : ℕ} {state : TracedWords}

theorem Sound.butterfly {first second i : ℕ} (p_lt : p < 2 ^ 62) (sound : state.Sound p size)
    (first_lt : first < size) (second_lt : second < size)
    (holds : table.Holds p i (table.entry i)) :
    (state.butterfly table p first second i).Sound p size := by
  have u0_lt := sound.below first first_lt
  have u1_lt := sound.below second second_lt
  constructor
  · intro cell cell_lt
    simp only [TracedWords.butterfly, nttButterfly, Function.update_apply]
    split
    · exact twiddledSub_lt p_lt u0_lt u1_lt holds
    · split
      · exact lazyAdd_lt p_lt u0_lt u1_lt
      · exact sound.below cell cell_lt
  · intro operation recorded
    simp only [TracedWords.butterfly, List.mem_append, List.mem_cons, List.not_mem_nil,
      or_false] at recorded
    rcases recorded with earlier | rfl | rfl
    · exact sound.exact operation earlier
    · exact WordOperation.exact_sum p_lt u0_lt u1_lt
    · exact WordOperation.exact_liftedDifference p_lt u0_lt u1_lt holds

/-- Each butterfly of a layer works on cells of its own block. -/
theorem Sound.layer {M half : ℕ} (p_lt : p < 2 ^ 62)
    (sound : state.Sound p (M * (half + half)))
    (holds : ∀ i < half, table.Holds p i (table.entry i)) :
    (state.layer table p M (half + half)).Sound p (M * (half + half)) := by
  have size_half : (half + half) / 2 = half := by omega
  rw [TracedWords.layer, size_half]
  refine forLoop_induction M _ _ (fun _ (state : TracedWords) => state.Sound p (M * (half + half))) sound ?_
  intro r state r_lt blocks
  refine forLoop_induction half _ _ (fun _ (state : TracedWords) => state.Sound p (M * (half + half))) blocks ?_
  intro i state i_lt current
  have block_le : (half + half) * (r + 1) ≤ (half + half) * M := Nat.mul_le_mul_left _ r_lt
  rw [Nat.mul_succ, mul_comm (half + half) M] at block_le
  exact current.butterfly p_lt (by omega) (by omega) (holds i i_lt)

theorem Sound.lastBlock {start : ℕ} (p_lt : p < 2 ^ 62) (sound : state.Sound p size)
    (start_lt : start + 3 < size) (holds : table.Holds p 1 (table.entry 1)) :
    (state.lastBlock table p start).Sound p size := by
  have u0_lt := sound.below start (by omega)
  have u1_lt := sound.below (start + 1) (by omega)
  have u2_lt := sound.below (start + 2) (by omega)
  have u3_lt := sound.below (start + 3) (by omega)
  have v0_lt := lazyAdd_lt p_lt u0_lt u2_lt
  have v1_lt := lazyAdd_lt p_lt u1_lt u3_lt
  have v2_lt := lazySub_lt p_lt u0_lt u2_lt
  have v3_lt := twiddledSub_lt p_lt u1_lt u3_lt holds
  constructor
  · intro cell cell_lt
    simp only [TracedWords.lastBlock, nttLastBlock, Function.update_apply]
    split
    · exact lazySub_lt p_lt v2_lt v3_lt
    · split
      · exact lazyAdd_lt p_lt v2_lt v3_lt
      · split
        · exact lazySub_lt p_lt v0_lt v1_lt
        · split
          · exact lazyAdd_lt p_lt v0_lt v1_lt
          · exact sound.below cell cell_lt
  · intro operation recorded
    simp only [TracedWords.lastBlock, lastOperations, List.mem_append, List.mem_cons,
      List.not_mem_nil, or_false] at recorded
    rcases recorded with earlier | rfl | rfl | rfl | rfl | rfl | rfl | rfl | rfl
    · exact sound.exact operation earlier
    · exact WordOperation.exact_sum p_lt u0_lt u2_lt
    · exact WordOperation.exact_signedDifference p_lt u0_lt u2_lt
    · exact WordOperation.exact_sum p_lt u1_lt u3_lt
    · exact WordOperation.exact_liftedDifference p_lt u1_lt u3_lt holds
    · exact WordOperation.exact_sum p_lt v0_lt v1_lt
    · exact WordOperation.exact_signedDifference p_lt v0_lt v1_lt
    · exact WordOperation.exact_sum p_lt v2_lt v3_lt
    · exact WordOperation.exact_signedDifference p_lt v2_lt v3_lt

end Steps

/-- The main loop keeps the invariant, and knows where it is in the table. -/
theorem Sound.main {table : ShoupTable} {p levels count : ℕ} {state : TracedWords}
    (p_lt : p < 2 ^ 62) (reduced : table.Reduced p levels) (count_le : count ≤ levels)
    (sound : state.Sound p (2 ^ levels)) :
    (forLoop count (mainRound (2 ^ levels) p) (state, table)).1.Sound p (2 ^ levels) ∧
      (forLoop count (mainRound (2 ^ levels) p) (state, table)).2 =
        table.drop (2 ^ levels - 2 ^ (levels - count)) := by
  refine forLoop_induction count _ _ (fun done (current : TracedWords × ShoupTable) =>
    current.1.Sound p (2 ^ levels) ∧
      current.2 = table.drop (2 ^ levels - 2 ^ (levels - done))) ?_ ?_
  · refine ⟨sound, ?_⟩
    simp [ShoupTable.drop]
  · rintro done ⟨current, rest⟩ done_lt ⟨soFar, rfl⟩
    have blocks := two_pow_eq_blocks (show done < levels by omega)
    have size := two_pow_div_blocks (show done < levels by omega)
    refine ⟨?_, ?_⟩
    · have layer := Sound.layer p_lt (by rwa [← blocks])
        (fun i i_lt => reduced.drop_holds (show done < levels by omega) i_lt)
      rw [← blocks] at layer
      simp only [mainRound, size]
      exact layer
    · simp only [mainRound, size]
      exact table.drop_drop_twiddles (by omega)

theorem sound_tracedNtt {table : ShoupTable} {p levels : ℕ} {x : ℕ → ℕ} (p_lt : p < 2 ^ 62)
    (levels_ge : 2 ≤ levels) (reduced : table.Reduced p levels)
    (below : ∀ cell < 2 ^ levels, x cell < 2 * p) :
    (tracedNtt x table (2 ^ levels) p).Sound p (2 ^ levels) := by
  obtain ⟨rest, rfl⟩ := Nat.exists_eq_add_of_le' levels_ge
  have four_le : 2 ^ (rest + 2) = 2 ^ rest * 4 := by ring
  have rest_pos := Nat.two_pow_pos rest
  have start : (⟨x, []⟩ : TracedWords).Sound p (2 ^ (rest + 2)) := ⟨below, by simp⟩
  rcases start.main p_lt reduced (show rest ≤ rest + 2 by omega) with ⟨main, position⟩
  have inner := reduced.drop_holds (show rest < rest + 2 by omega) (i := 1)
    (by rw [show rest + 2 - 1 - rest = 1 by omega]; omega)
  rw [tracedNtt, if_neg (by omega), if_neg (by omega)]
  simp only [Nat.log2_two_pow, Nat.add_sub_cancel]
  rw [position]
  refine forLoop_induction (2 ^ rest) _ _ (fun _ (state : TracedWords) => state.Sound p (2 ^ (rest + 2))) main ?_
  intro r state r_lt soFar
  exact soFar.lastBlock p_lt (by omega) inner

end TracedWords

/-! ## What the words stand for -/

/-- The twiddles of a table of any entries: the last two layers skip the first one. -/
def tableTwiddle (table : ShoupTable) (p levels layer i : ℕ) : ZMod p :=
  if levels ≤ layer + 2 ∧ i = 0 then 1
  else (table.drop (2 ^ levels - 2 ^ (levels - layer))).entry i

theorem ShoupTable.Reduced.serves {table : ShoupTable} {p levels : ℕ}
    (reduced : table.Reduced p levels) : Serves table p (tableTwiddle table p levels) levels := by
  constructor
  · intro layer layer_lt i i_lt
    rw [tableTwiddle, if_neg (by omega)]
    exact reduced.drop_holds (by omega) i_lt
  · intro levels_ge
    have entry := reduced.drop_holds (show levels - 2 < levels by omega) (i := 1)
      (by rw [show levels - 1 - (levels - 2) = 1 by omega]; omega)
    rw [tableTwiddle, if_neg (by omega)]
    rwa [show levels - (levels - 2) = 2 by omega] at entry ⊢
  · intro layer layer_ge
    rw [tableTwiddle, if_pos ⟨layer_ge, rfl⟩]

/--
No operation of the transform wraps, and its words are those of the exact transform:
of the network with the twiddles of the table, which for the powers of a root is the
Fourier transform in bit-reversed order.
-/
theorem ntt_never_overflows {table : ShoupTable} {p levels : ℕ} {x : ℕ → ℕ} (p_lt : p < 2 ^ 62)
    (levels_ge : 2 ≤ levels) (reduced : table.Reduced p levels)
    (below : ∀ cell < 2 ^ levels, x cell < 2 * p) :
    4 * p < 2 ^ 64 ∧
    (tracedNtt x table (2 ^ levels) p).words = ntt x table (2 ^ levels) p ∧
    (tracedNtt x table (2 ^ levels) p).operations.length = levels * 2 ^ levels ∧
    (∀ operation ∈ (tracedNtt x table (2 ^ levels) p).operations, operation.Exact p) ∧
    (∀ cell < 2 ^ levels, ntt x table (2 ^ levels) p cell < 2 * p ∧
      (ntt x table (2 ^ levels) p cell : ZMod p) =
        twiddledLayers (tableTwiddle table p levels) levels (fun cell => (x cell : ZMod p))
          levels cell) ∧
    ∀ root : ZMod p, root ^ 2 ^ (levels - 1) = -1 → HoldsTwiddles table p root levels →
      ∀ cell < 2 ^ levels, (ntt x table (2 ^ levels) p cell : ZMod p) =
        dft root (2 ^ levels) (fun cell => (x cell : ZMod p)) (bitReverse levels cell) := by
  have represents : Represents p (2 ^ levels) x (fun cell => (x cell : ZMod p)) :=
    fun cell cell_lt => ⟨below cell cell_lt, rfl⟩
  refine ⟨by omega, tracedNtt_words x table _ p, length_tracedNtt x table p levels_ge, ?_, ?_, ?_⟩
  · exact (TracedWords.sound_tracedNtt p_lt levels_ge reduced below).exact
  · exact ntt_represents_twiddledLayers p_lt reduced.serves represents
  · intro root halfway twiddles cell cell_lt
    rw [(ntt_represents p_lt twiddles represents cell cell_lt).2]
    exact decimationLayers_apply _ (fun _ => halfway) cell_lt

/-- Powers of four modulo seventeen. -/
def tableFour : ShoupTable where
  entry := fun index => if index = 1 then 4 else 1
  shoup := fun index => (if index = 1 then 4 else 1) * 2 ^ 64 / 17

theorem tableFour_reduced : tableFour.Reduced 17 2 := by
  intro index _
  refine ⟨?_, rfl⟩
  dsimp only [tableFour]
  split <;> omega

/-- Degree four modulo seventeen, with the largest words. -/
theorem ntt_never_overflows_four :
    (tracedNtt (fun _ => 33) tableFour (2 ^ 2) 17).words =
        ntt (fun _ => 33) tableFour (2 ^ 2) 17 ∧
      (tracedNtt (fun _ => 33) tableFour (2 ^ 2) 17).operations.length = 2 * 2 ^ 2 ∧
      ∀ operation ∈ (tracedNtt (fun _ => 33) tableFour (2 ^ 2) 17).operations,
        operation.Exact 17 := by
  have sound := @ntt_never_overflows tableFour 17 2 (fun _ => 33) (by decide) le_rfl
    tableFour_reduced (fun _ _ => by omega)
  exact ⟨sound.2.1, sound.2.2.1, sound.2.2.2.1⟩

end NFLlib

end Xpir
