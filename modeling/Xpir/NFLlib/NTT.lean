import Xpir.Foundations.ButterflyNetwork
import Xpir.NFLlib.Arithmetic

/-!
# Number-theoretic transforms

This file contains the in-place transform of a polynomial modulo one modulus, its
inverse, and the computation of the tables of powers both of them read.

The words of the polynomial are only reduced modulo `2 * p`. The predicate
`Represents` relates such an array to its values modulo `p`, and the results
state that each pass over the array simulates one layer of `decimationLayers`.
-/

namespace Xpir

namespace NFLlib

/-! ## Tables with precomputed quotients -/

/-- A table of operands together with the table of their quotients. -/
structure ShoupTable where
  entry : ℕ → ℕ
  shoup : ℕ → ℕ

namespace ShoupTable

/-- Store an operand and its quotient. -/
def set (table : ShoupTable) (index y p : ℕ) : ShoupTable where
  entry := Function.update table.entry index y
  shoup := Function.update table.shoup index (shoupQuotient y p)

/-- The part of a table starting at an offset. -/
def drop (table : ShoupTable) (offset : ℕ) : ShoupTable where
  entry index := table.entry (offset + index)
  shoup index := table.shoup (offset + index)

/-- Entry `index` is a reduced operand of the given residue, with its quotient. -/
structure Holds (table : ShoupTable) (p index : ℕ) (value : ZMod p) : Prop where
  entry_lt : table.entry index < p
  cast_entry : (table.entry index : ZMod p) = value
  shoup_eq : table.shoup index = shoupQuotient (table.entry index) p

theorem holds_set_self {table : ShoupTable} {index y p : ℕ} (y_lt : y < p) :
    (table.set index y p).Holds p index (y : ZMod p) := by
  constructor
  · simpa [set] using y_lt
  · simp [set]
  · simp [set]

theorem Holds.set_of_ne {table : ShoupTable} {index other y p : ℕ} {value : ZMod p}
    (holds : table.Holds p index value) (distinct : index ≠ other) :
    (table.set other y p).Holds p index value := by
  constructor
  · simpa [set, distinct] using holds.entry_lt
  · simpa [set, distinct] using holds.cast_entry
  · simpa [set, distinct] using holds.shoup_eq

end ShoupTable

/-- Store `first, first * factor, first * factor ^ 2, …` from the given offset on. -/
def fillPowers (first factor p offset count : ℕ) (table : ShoupTable) : ℕ × ShoupTable :=
  forLoop count
    (fun i state => (mulmod state.1 factor p, state.2.set (offset + i) state.1 p))
    (first, table)

theorem fillPowers_spec {first p : ℕ} (first_lt : first < p) (factor offset count : ℕ)
    (table : ShoupTable) :
    ((fillPowers first factor p offset count table).1 < p ∧
      ((fillPowers first factor p offset count table).1 : ZMod p) =
        first * (factor : ZMod p) ^ count) ∧
    (∀ i < count, (fillPowers first factor p offset count table).2.Holds p (offset + i)
      (first * (factor : ZMod p) ^ i)) ∧
    ∀ (index : ℕ) (value : ZMod p), index < offset → table.Holds p index value →
      (fillPowers first factor p offset count table).2.Holds p index value := by
  refine forLoop_induction _ _ _ (fun done (state : ℕ × ShoupTable) =>
    (state.1 < p ∧ (state.1 : ZMod p) = first * (factor : ZMod p) ^ done) ∧
    (∀ i < done, state.2.Holds p (offset + i) (first * (factor : ZMod p) ^ i)) ∧
    ∀ (index : ℕ) (value : ZMod p), index < offset → table.Holds p index value →
      state.2.Holds p index value) ?_ ?_
  · refine ⟨⟨first_lt, by simp⟩, by simp, ?_⟩
    intro index value _ holds
    exact holds
  · rintro done ⟨temp, current⟩ _ ⟨⟨temp_lt, cast_temp⟩, filled, kept⟩
    refine ⟨⟨mulmod_lt (by omega) temp factor, ?_⟩, ?_, ?_⟩
    · rw [cast_mulmod, cast_temp, pow_succ, mul_assoc]
    · intro i i_lt
      by_cases last : i = done
      · rw [last, ← cast_temp]
        exact ShoupTable.holds_set_self temp_lt
      · exact (filled i (by omega)).set_of_ne (by omega)
    · intro index value index_lt holds
      exact (kept index value index_lt holds).set_of_ne (by omega)

/-! ## Words modulo `2 * p` -/

/-- `u0 + u1`, with `2 * p` subtracted if the sum reaches it. -/
def lazyAdd (u0 u1 p : ℕ) : ℕ :=
  let t0 := (u0 + u1) % 2 ^ 64
  if 2 * p ≤ t0 then t0 - 2 * p else t0

/-- `u0 - u1`, with `2 * p` added if the difference is negative as an `int64_t`. -/
def lazySub (u0 u1 p : ℕ) : ℕ :=
  let t1 := wordSub u0 u1
  if 2 ^ 63 ≤ t1 then (t1 + 2 * p) % 2 ^ 64 else t1

/-- `u0 - u1 + 2 * p` multiplied by a table entry. -/
def twiddledSub (u0 u1 w wshoup p : ℕ) : ℕ :=
  let t1 := (wordSub u0 u1 + 2 * p) % 2 ^ 64
  shoupDifference t1 w wshoup p

section Words

variable {u0 u1 p : ℕ}

theorem lazyAdd_eq (p_lt : p < 2 ^ 62) (u0_lt : u0 < 2 * p) (u1_lt : u1 < 2 * p) :
    lazyAdd u0 u1 p = if 2 * p ≤ u0 + u1 then u0 + u1 - 2 * p else u0 + u1 := by
  simp only [lazyAdd, Nat.mod_eq_of_lt (show u0 + u1 < 2 ^ 64 by omega)]

theorem lazyAdd_lt (p_lt : p < 2 ^ 62) (u0_lt : u0 < 2 * p) (u1_lt : u1 < 2 * p) :
    lazyAdd u0 u1 p < 2 * p := by
  rw [lazyAdd_eq p_lt u0_lt u1_lt]
  exact (lazySum_stands u0_lt u1_lt).1

theorem cast_lazyAdd (p_lt : p < 2 ^ 62) (u0_lt : u0 < 2 * p) (u1_lt : u1 < 2 * p) :
    (lazyAdd u0 u1 p : ZMod p) = u0 + u1 := by
  rw [lazyAdd_eq p_lt u0_lt u1_lt]
  exact (lazySum_stands u0_lt u1_lt).2

theorem lazySub_eq (p_lt : p < 2 ^ 62) (u0_lt : u0 < 2 * p) (u1_lt : u1 < 2 * p) :
    lazySub u0 u1 p = if u0 < u1 then u0 + 2 * p - u1 else u0 - u1 := by
  rw [lazySub, wordSub]
  by_cases negative : u0 < u1
  · have difference : (u0 + (2 ^ 64 - u1 % 2 ^ 64)) % 2 ^ 64 = u0 + 2 ^ 64 - u1 := by omega
    simp only [difference]
    rw [if_pos (by omega), if_pos negative]
    omega
  · have difference : (u0 + (2 ^ 64 - u1 % 2 ^ 64)) % 2 ^ 64 = u0 - u1 := by omega
    simp only [difference]
    rw [if_neg (by omega), if_neg negative]

theorem lazySub_lt (p_lt : p < 2 ^ 62) (u0_lt : u0 < 2 * p) (u1_lt : u1 < 2 * p) :
    lazySub u0 u1 p < 2 * p := by
  rw [lazySub_eq p_lt u0_lt u1_lt]
  exact (lazyDifference_stands u0_lt u1_lt).1

theorem cast_lazySub (p_lt : p < 2 ^ 62) (u0_lt : u0 < 2 * p) (u1_lt : u1 < 2 * p) :
    (lazySub u0 u1 p : ZMod p) = u0 - u1 := by
  rw [lazySub_eq p_lt u0_lt u1_lt]
  exact (lazyDifference_stands u0_lt u1_lt).2

theorem twiddledSub_eq (p_lt : p < 2 ^ 62) (u0_lt : u0 < 2 * p) (u1_lt : u1 < 2 * p)
    (w wshoup : ℕ) :
    twiddledSub u0 u1 w wshoup p = shoupDifference (u0 + 2 * p - u1) w wshoup p := by
  have word : (wordSub u0 u1 + 2 * p) % 2 ^ 64 = u0 + 2 * p - u1 := by
    rw [wordSub]
    omega
  simp only [twiddledSub, word]

variable {table : ShoupTable} {index : ℕ} {value : ZMod p}

theorem twiddledSub_lt (p_lt : p < 2 ^ 62) (u0_lt : u0 < 2 * p) (u1_lt : u1 < 2 * p)
    (holds : table.Holds p index value) :
    twiddledSub u0 u1 (table.entry index) (table.shoup index) p < 2 * p := by
  rw [twiddledSub_eq p_lt u0_lt u1_lt, holds.shoup_eq]
  exact shoupDifference_lt p_lt (by omega) holds.entry_lt

theorem cast_twiddledSub (p_lt : p < 2 ^ 62) (u0_lt : u0 < 2 * p) (u1_lt : u1 < 2 * p)
    (holds : table.Holds p index value) :
    (twiddledSub u0 u1 (table.entry index) (table.shoup index) p : ZMod p) =
      (u0 - u1) * value := by
  rw [twiddledSub_eq p_lt u0_lt u1_lt, holds.shoup_eq,
    cast_shoupDifference p_lt (by omega) holds.entry_lt, cast_add_two_mul_sub u1_lt,
    holds.cast_entry]

end Words

/-! ## The transform -/

/-- One butterfly of the main loop, on the cells `first` and `second`. -/
def nttButterfly (table : ShoupTable) (p first second i : ℕ) (x : ℕ → ℕ) : ℕ → ℕ :=
  let u0 := x first
  let u1 := x second
  Function.update (Function.update x first (lazyAdd u0 u1 p)) second
    (twiddledSub u0 u1 (table.entry i) (table.shoup i) p)

/-- One layer of the main loop: `M` blocks of `N` cells. -/
def nttLayer (table : ShoupTable) (M N p : ℕ) (x : ℕ → ℕ) : ℕ → ℕ :=
  forLoop M (fun r x =>
    forLoop (N / 2) (fun i x => nttButterfly table p (N * r + i) (N * r + i + N / 2) i x) x) x

/-- The last two layers, fused, on the four cells from `start` on. -/
def nttLastBlock (table : ShoupTable) (p start : ℕ) (x : ℕ → ℕ) : ℕ → ℕ :=
  let u0 := x start
  let u1 := x (start + 1)
  let u2 := x (start + 2)
  let u3 := x (start + 3)
  let v0 := lazyAdd u0 u2 p
  let v2 := lazySub u0 u2 p
  let v1 := lazyAdd u1 u3 p
  let v3 := twiddledSub u1 u3 (table.entry 1) (table.shoup 1) p
  let z0 := lazyAdd v0 v1 p
  let z1 := lazySub v0 v1 p
  let z2 := lazyAdd v2 v3 p
  let z3 := lazySub v2 v3 p
  Function.update (Function.update (Function.update (Function.update x
    start z0) (start + 1) z1) (start + 2) z2) (start + 3) z3

/-- The in-place transform of the `K` words of a polynomial. -/
def ntt (x : ℕ → ℕ) (table : ShoupTable) (K p : ℕ) : ℕ → ℕ :=
  if K = 1 then x
  else if K = 2 then
    let u0 := x 0
    let u1 := x 1
    Function.update (Function.update x 0 (lazyAdd u0 u1 p)) 1 (lazySub u0 u1 p)
  else
    let J := Nat.log2 K - 2
    let main := forLoop J (fun w (state : (ℕ → ℕ) × ShoupTable) =>
      let M := 2 ^ w
      let N := K / 2 ^ w
      (nttLayer state.2 M N p state.1, state.2.drop (N / 2))) (x, table)
    forLoop (2 ^ J) (fun r x => nttLastBlock main.2 p (4 * r) x) main.1

/-- The array holds words below `2 * p` with the given residues. -/
def Represents (p size : ℕ) (x : ℕ → ℕ) (values : ℕ → ZMod p) : Prop :=
  ∀ cell < size, x cell < 2 * p ∧ (x cell : ZMod p) = values cell

/-- The transform as a network on words. -/
def nttOperations (table : ShoupTable) (p : ℕ) : ButterflyOperations ℕ where
  add u0 u1 := lazyAdd u0 u1 p
  sub u0 u1 := lazySub u0 u1 p
  twiddled index u0 u1 := twiddledSub u0 u1 (table.entry index) (table.shoup index) p

theorem ntt_eq_network (x : ℕ → ℕ) (table : ShoupTable) (K p : ℕ) :
    ntt x table K p = (nttOperations table p).network K x := by
  have main : ∀ count, (nttOperations table p).mainLayers K count x =
      ((forLoop count (fun w (state : (ℕ → ℕ) × ShoupTable) =>
        (nttLayer state.2 (2 ^ w) (K / 2 ^ w) p state.1, state.2.drop (K / 2 ^ w / 2)))
          (x, table)).1,
        nttOperations (forLoop count (fun w (state : (ℕ → ℕ) × ShoupTable) =>
          (nttLayer state.2 (2 ^ w) (K / 2 ^ w) p state.1, state.2.drop (K / 2 ^ w / 2)))
            (x, table)).2 p) := by
    intro count
    exact (forLoop_project (fun state : (ℕ → ℕ) × ShoupTable => (state.1, nttOperations state.2 p))
      (fun _ _ _ => rfl) (x, table)).symm
  rw [ntt, ButterflyOperations.network]
  simp only [main]
  rfl

/-! ### All layers -/

/--
The table used by a transform of size `2 ^ levels`: one group of powers for each
layer, each group half as long as the one before it.
-/
def HoldsTwiddles (table : ShoupTable) (p : ℕ) (root : ZMod p) (levels : ℕ) : Prop :=
  ∀ layer < levels, ∀ i < 2 ^ (levels - 1 - layer),
    table.Holds p (2 ^ levels - 2 ^ (levels - layer) + i) ((root ^ 2 ^ layer) ^ i)

/-- The entries that a transform reads have the residues of the given twiddles. -/
structure Serves (table : ShoupTable) (p : ℕ) (twiddle : ℕ → ℕ → ZMod p) (levels : ℕ) :
    Prop where
  main : ∀ layer, layer + 2 < levels → ∀ i < 2 ^ (levels - 1 - layer),
    (table.drop (2 ^ levels - 2 ^ (levels - layer))).Holds p i (twiddle layer i)
  inner : 2 ≤ levels → (table.drop (2 ^ levels - 4)).Holds p 1 (twiddle (levels - 2) 1)
  /-- The last two layers read no entry for their first twiddles. -/
  trivial : ∀ layer, levels ≤ layer + 2 → twiddle layer 0 = 1

theorem HoldsTwiddles.drop {table : ShoupTable} {p levels layer : ℕ} {root : ZMod p}
    (twiddles : HoldsTwiddles table p root levels) (layer_lt : layer < levels) :
    ∀ i < 2 ^ (levels - 1 - layer),
      (table.drop (2 ^ levels - 2 ^ (levels - layer))).Holds p i ((root ^ 2 ^ layer) ^ i) := by
  intro i i_lt
  have entry := twiddles layer layer_lt i i_lt
  exact ⟨entry.entry_lt, entry.cast_entry, entry.shoup_eq⟩

theorem HoldsTwiddles.serves {table : ShoupTable} {p levels : ℕ} {root : ZMod p}
    (twiddles : HoldsTwiddles table p root levels) :
    Serves table p (fun layer i => (root ^ 2 ^ layer) ^ i) levels := by
  constructor
  · intro layer layer_lt
    exact twiddles.drop (by omega)
  · intro levels_ge
    have entry := twiddles.drop (show levels - 2 < levels by omega) 1
      (by rw [show levels - 1 - (levels - 2) = 1 by omega]; omega)
    rwa [show levels - (levels - 2) = 2 by omega] at entry
  · intro layer _
    exact pow_zero _

theorem ShoupTable.drop_drop_twiddles (table : ShoupTable) {levels layer : ℕ}
    (layer_lt : layer < levels) :
    (table.drop (2 ^ levels - 2 ^ (levels - layer))).drop
        ((2 ^ (levels - 1 - layer) + 2 ^ (levels - 1 - layer)) / 2) =
      table.drop (2 ^ levels - 2 ^ (levels - (layer + 1))) := by
  simp only [drop, ← twiddleOffset_succ layer_lt, Nat.add_assoc]

section Network

variable {table : ShoupTable} {p levels : ℕ} {x : ℕ → ℕ} {values : ℕ → ZMod p} (p_lt : p < 2 ^ 62)

include p_lt

/-- Words below `2 * p` stand for their residues. -/
theorem Serves.simulates {twiddle : ℕ → ℕ → ZMod p} (serves : Serves table p twiddle levels) :
    (nttOperations table p).Simulates
      (fun (u : ℕ) (a : ZMod p) => u < 2 * p ∧ (u : ZMod p) = a) twiddle levels := by
  have multiplies : ∀ {index : ℕ} {value : ZMod p}, table.Holds p index value →
      (nttOperations table p).Multiplies
        (fun (u : ℕ) (a : ZMod p) => u < 2 * p ∧ (u : ZMod p) = a) index value := by
    rintro index value holds u0 u1 a0 a1 ⟨u0_lt, rfl⟩ ⟨u1_lt, rfl⟩
    exact ⟨twiddledSub_lt p_lt u0_lt u1_lt holds, cast_twiddledSub p_lt u0_lt u1_lt holds⟩
  constructor
  · rintro u0 u1 a0 a1 ⟨u0_lt, rfl⟩ ⟨u1_lt, rfl⟩
    exact ⟨lazyAdd_lt p_lt u0_lt u1_lt, cast_lazyAdd p_lt u0_lt u1_lt⟩
  · rintro u0 u1 a0 a1 ⟨u0_lt, rfl⟩ ⟨u1_lt, rfl⟩
    exact ⟨lazySub_lt p_lt u0_lt u1_lt, cast_lazySub p_lt u0_lt u1_lt⟩
  · intro layer layer_lt i i_lt
    have entry := serves.main layer layer_lt i i_lt
    exact multiplies ⟨entry.entry_lt, entry.cast_entry, entry.shoup_eq⟩
  · intro levels_ge
    have entry := serves.inner levels_ge
    exact multiplies ⟨entry.entry_lt, entry.cast_entry, entry.shoup_eq⟩
  · exact serves.trivial

theorem ntt_represents_twiddledLayers {twiddle : ℕ → ℕ → ZMod p}
    (serves : Serves table p twiddle levels) (represents : Represents p (2 ^ levels) x values) :
    Represents p (2 ^ levels) (ntt x table (2 ^ levels) p)
      (twiddledLayers twiddle levels values levels) := by
  rw [ntt_eq_network]
  exact (serves.simulates p_lt).network represents

/-- The transform computes `decimationLayers`. -/
theorem ntt_represents {root : ZMod p} (twiddles : HoldsTwiddles table p root levels)
    (represents : Represents p (2 ^ levels) x values) :
    Represents p (2 ^ levels) (ntt x table (2 ^ levels) p)
      (decimationLayers root levels values levels) := by
  rw [← twiddledLayers_powers]
  exact ntt_represents_twiddledLayers p_lt twiddles.serves represents

end Network

/-! ## The inverse transform -/

/-- `y[inv_indexes[i]] = x[i]` for the first `K` indices. -/
def permut (y x invIndexes : ℕ → ℕ) (K : ℕ) : ℕ → ℕ :=
  forLoop K (fun i y => Function.update y (invIndexes i) (x i)) y

/-- The inverse transform, up to the factors of `invnttAndPowInvPhi`. -/
def invNtt (x : ℕ → ℕ) (table : ShoupTable) (K p : ℕ) (invIndexes : ℕ → ℕ) : ℕ → ℕ :=
  if K = 1 then x
  else
    let y := permut (fun _ => 0) x invIndexes K
    let y := ntt y table K p
    permut x y invIndexes K

section Inverse

variable {invIndexes : ℕ → ℕ} {levels : ℕ}
  (reversal : ∀ i < 2 ^ levels, invIndexes i = bitReverse levels i)

include reversal

theorem permut_bitReverse (y x : ℕ → ℕ) {cell : ℕ} (cell_lt : cell < 2 ^ levels) :
    permut y x invIndexes (2 ^ levels) cell = x (bitReverse levels cell) := by
  have reversed_lt := bitReverse_lt levels cell
  have target : invIndexes (bitReverse levels cell) = cell := by
    rw [reversal _ reversed_lt, bitReverse_bitReverse cell_lt]
  have injective : Set.InjOn invIndexes (Set.Iio (2 ^ levels)) := by
    intro i i_lt j j_lt sameImage
    rw [reversal i i_lt, reversal j j_lt] at sameImage
    rw [← bitReverse_bitReverse i_lt, sameImage, bitReverse_bitReverse j_lt]
  conv_lhs => rw [← target]
  exact forLoop_update_cell injective (fun i _ => x i) y reversed_lt

/-- Between two bit reversals, the layers compute a transform in natural order. -/
theorem invNtt_represents {table : ShoupTable} {p : ℕ} {root : ZMod p} {x : ℕ → ℕ}
    {values : ℕ → ZMod p} (p_lt : p < 2 ^ 62)
    (halfway : 0 < levels → root ^ 2 ^ (levels - 1) = -1)
    (twiddles : HoldsTwiddles table p root levels) (represents : Represents p (2 ^ levels) x values) :
    Represents p (2 ^ levels) (invNtt x table (2 ^ levels) p invIndexes)
      (dft root (2 ^ levels) (fun frequency => values (bitReverse levels frequency))) := by
  rcases Nat.eq_zero_or_pos levels with rfl | levels_pos
  · simpa [invNtt, Represents, dft, bitReverse] using represents
  · have permuted : Represents p (2 ^ levels) (permut (fun _ => 0) x invIndexes (2 ^ levels))
        (fun frequency => values (bitReverse levels frequency)) := by
      intro cell cell_lt
      rw [permut_bitReverse reversal _ x cell_lt]
      exact represents _ (bitReverse_lt levels cell)
    have transformed := ntt_represents p_lt twiddles permuted
    have size_gt : 2 ^ 0 < 2 ^ levels := Nat.pow_lt_pow_right (by omega) levels_pos
    rw [invNtt, if_neg (by omega)]
    intro cell cell_lt
    have reversed_lt := bitReverse_lt levels cell
    simp only [permut_bitReverse reversal _ _ cell_lt]
    have result := transformed _ reversed_lt
    rwa [decimationLayers_apply _ halfway reversed_lt, bitReverse_bitReverse cell_lt] at result

end Inverse

/-! ## The tables -/

/-- The powers of `w` read by a transform of size `K`, group after group. -/
def prepWtab (K w p offset : ℕ) (table : ShoupTable) : ShoupTable :=
  if 2 ≤ K then
    prepWtab (K / 2) (mulmod w w p) p (offset + K / 2)
      (fillPowers 1 w p offset (K / 2) table).2
  else table
termination_by K

theorem prepWtab_spec {p : ℕ} (one_lt : 1 < p) (levels w offset : ℕ) (table : ShoupTable) :
    (∀ layer < levels, ∀ i < 2 ^ (levels - 1 - layer),
      (prepWtab (2 ^ levels) w p offset table).Holds p
        (offset + (2 ^ levels - 2 ^ (levels - layer)) + i) (((w : ZMod p) ^ 2 ^ layer) ^ i)) ∧
    ∀ (index : ℕ) (value : ZMod p), index < offset → table.Holds p index value →
      (prepWtab (2 ^ levels) w p offset table).Holds p index value := by
  induction levels generalizing w offset table with
  | zero =>
      rw [prepWtab, if_neg (by omega)]
      refine ⟨by simp, ?_⟩
      intro index value _ holds
      exact holds
  | succ levels ih =>
      have half : 2 ^ (levels + 1) / 2 = 2 ^ levels := by rw [pow_succ]; omega
      have size_ge := Nat.two_pow_pos levels
      rw [prepWtab, if_pos (by rw [pow_succ]; omega), half]
      have row := fillPowers_spec one_lt w offset (2 ^ levels) table
      generalize (fillPowers 1 w p offset (2 ^ levels) table) = filled at row ⊢
      rcases row with ⟨_, entries, kept⟩
      rcases ih (mulmod w w p) (offset + 2 ^ levels) filled.2 with ⟨later, earlier⟩
      refine ⟨?_, ?_⟩
      · intro layer layer_lt i i_lt
        cases layer with
        | zero =>
            simp only [Nat.sub_zero, Nat.sub_self, Nat.add_zero, pow_zero, pow_one,
              Nat.add_sub_cancel] at i_lt ⊢
            apply earlier _ _ (by omega)
            simpa using entries i i_lt
        | succ layer =>
            have entry := later layer (by omega) i (by
              rwa [show levels + 1 - 1 - (layer + 1) = levels - 1 - layer by omega] at i_lt)
            have smaller : 2 ^ (levels - layer) ≤ 2 ^ levels :=
              Nat.pow_le_pow_right (by omega) (by omega)
            have position : offset + 2 ^ levels + (2 ^ levels - 2 ^ (levels - layer)) + i =
                offset + (2 ^ (levels + 1) - 2 ^ (levels + 1 - (layer + 1))) + i := by
              rw [Nat.add_sub_add_right, pow_succ]
              omega
            have power : ((mulmod w w p : ℕ) : ZMod p) ^ 2 ^ layer = (w : ZMod p) ^ 2 ^ (layer + 1) := by
              rw [cast_mulmod, ← sq, ← pow_mul, pow_succ']
            rwa [position, power] at entry
      · intro index value index_lt holds
        exact earlier index value (by omega) (kept index value index_lt holds)

theorem prepWtab_holdsTwiddles {p : ℕ} (one_lt : 1 < p) (levels w : ℕ) (table : ShoupTable) :
    HoldsTwiddles (prepWtab (2 ^ levels) w p 0 table) p w levels := by
  intro layer layer_lt i i_lt
  have entry := (prepWtab_spec one_lt levels w 0 table).1 layer layer_lt i i_lt
  rwa [Nat.zero_add] at entry

end NFLlib

end Xpir
