import Mathlib.Data.ZMod.Basic
import Xpir.Foundations.Loop
import Xpir.Foundations.Transform

/-!
# Networks of butterflies

The decimation network works in place on an array: a butterfly replaces two cells by their
sum and by their difference times a twiddle, of which a table has one group for each layer. The
last two layers are fused into blocks of four cells, and skip their trivial twiddles.

The cells are of any type. If each operation on cells stands for the one of a ring, then the
network stands for `twiddledLayers` (`Simulates.network`).
-/

namespace Xpir

universe u v

/-- What a network computes of two cells. -/
structure ButterflyOperations (Cell : Type u) where
  add : Cell → Cell → Cell
  sub : Cell → Cell → Cell
  /-- The difference times an entry of the table. -/
  twiddled : ℕ → Cell → Cell → Cell

namespace ButterflyOperations

variable {Cell : Type u} (operations : ButterflyOperations Cell)

/-- The operations with the part of the table that starts at an offset. -/
def drop (offset : ℕ) : ButterflyOperations Cell where
  add := operations.add
  sub := operations.sub
  twiddled index := operations.twiddled (offset + index)

/-- One butterfly, on the cells `first` and `second`. -/
def butterfly (first second i : ℕ) (x : ℕ → Cell) : ℕ → Cell :=
  let u0 := x first
  let u1 := x second
  Function.update (Function.update x first (operations.add u0 u1)) second
    (operations.twiddled i u0 u1)

/-- One layer: `M` blocks of `N` cells. -/
def layer (M N : ℕ) (x : ℕ → Cell) : ℕ → Cell :=
  forLoop M (fun r x =>
    forLoop (N / 2) (fun i x => operations.butterfly (N * r + i) (N * r + i + N / 2) i x) x) x

/-- The last two layers, fused, on the four cells from `start` on. -/
def lastBlock (start : ℕ) (x : ℕ → Cell) : ℕ → Cell :=
  let u0 := x start
  let u1 := x (start + 1)
  let u2 := x (start + 2)
  let u3 := x (start + 3)
  let v0 := operations.add u0 u2
  let v2 := operations.sub u0 u2
  let v1 := operations.add u1 u3
  let v3 := operations.twiddled 1 u1 u3
  let z0 := operations.add v0 v1
  let z1 := operations.sub v0 v1
  let z2 := operations.add v2 v3
  let z3 := operations.sub v2 v3
  Function.update (Function.update (Function.update (Function.update x
    start z0) (start + 1) z1) (start + 2) z2) (start + 3) z3

/-- The layers before the last two, which also advance the table. -/
def mainLayers (K count : ℕ) (x : ℕ → Cell) : (ℕ → Cell) × ButterflyOperations Cell :=
  forLoop count (fun w state =>
    let M := 2 ^ w
    let N := K / 2 ^ w
    (state.2.layer M N state.1, state.2.drop (N / 2))) (x, operations)

/-- The network on `K` cells. -/
def network (K : ℕ) (x : ℕ → Cell) : ℕ → Cell :=
  if K = 1 then x
  else if K = 2 then
    let u0 := x 0
    let u1 := x 1
    Function.update (Function.update x 0 (operations.add u0 u1)) 1 (operations.sub u0 u1)
  else
    let J := Nat.log2 K - 2
    let main := operations.mainLayers K J x
    forLoop (2 ^ J) (fun r x => main.2.lastBlock (4 * r) x) main.1

/-! ## Closed forms -/

/-- The cell a layer leaves. -/
def layerCell (half : ℕ) (x : ℕ → Cell) (cell : ℕ) : Cell :=
  let position := cell % (half + half)
  if position < half then operations.add (x cell) (x (cell + half))
  else operations.twiddled (position - half) (x (cell - half)) (x cell)

/-- Closed form of the butterflies of one block, which starts at `base`. -/
theorem block_apply (half base : ℕ) (x : ℕ → Cell) (cell : ℕ) :
    forLoop half (fun i x => operations.butterfly (base + i) (base + i + half) i x) x cell =
      if base ≤ cell ∧ cell < base + half then operations.add (x cell) (x (cell + half))
      else if base + half ≤ cell ∧ cell < base + half + half then
        operations.twiddled (cell - base - half) (x (cell - half)) (x cell)
      else x cell := by
  revert cell
  refine forLoop_induction _ _ _ (fun done (state : ℕ → Cell) => ∀ cell, state cell =
    if base ≤ cell ∧ cell < base + done then operations.add (x cell) (x (cell + half))
    else if base + half ≤ cell ∧ cell < base + half + done then
      operations.twiddled (cell - base - half) (x (cell - half)) (x cell)
    else x cell) ?_ ?_
  · intro cell
    rw [if_neg (by omega), if_neg (by omega)]
  · intro done state done_lt written cell
    have first := written (base + done)
    have second := written (base + done + half)
    rw [if_neg (by omega), if_neg (by omega)] at first second
    simp only [butterfly, first, second, Function.update_apply]
    by_cases isSecond : cell = base + done + half
    · have opposite : cell - half = base + done := by omega
      have position : cell - base - half = done := by omega
      rw [if_pos isSecond, if_neg (by omega), if_pos (by omega), opposite, position, isSecond]
    · rw [if_neg isSecond]
      by_cases isFirst : cell = base + done
      · rw [if_pos isFirst, if_pos (by omega), isFirst]
      · rw [if_neg isFirst, written cell]
        congr 1
        · simp only [eq_iff_iff]
          omega
        · congr 1
          simp only [eq_iff_iff]
          omega

/-- Closed form of one layer. -/
theorem layer_apply (M : ℕ) {half : ℕ} (half_pos : 0 < half) (x : ℕ → Cell) (cell : ℕ) :
    operations.layer M (half + half) x cell =
      if cell / (half + half) < M then operations.layerCell half x cell else x cell := by
  have size_half : (half + half) / 2 = half := by omega
  rw [layer, size_half]
  apply forLoop_apply_of_owner (fun cell => cell / (half + half)) (operations.layerCell half)
  · intro r x cell _
    have decomposition := Nat.div_add_mod cell (half + half)
    have position_lt := Nat.mod_lt cell (show 0 < half + half by omega)
    rw [block_apply, layerCell]
    by_cases inBlock : cell / (half + half) = r
    · rw [inBlock] at decomposition
      have position : cell - (half + half) * r - half = cell % (half + half) - half := by omega
      rw [if_pos inBlock, position]
      by_cases first : cell % (half + half) < half
      · rw [if_pos (by omega), if_pos first]
      · rw [if_neg (by omega), if_pos (by omega), if_neg first]
    · have outside : ¬((half + half) * r ≤ cell ∧ cell < (half + half) * r + (half + half)) := by
        rintro ⟨lower, upper⟩
        apply inBlock
        apply Nat.div_eq_of_lt_le
        · rwa [mul_comm]
        · rw [Nat.add_mul, one_mul, mul_comm r]
          exact upper
      rw [if_neg (by omega), if_neg (by omega), if_neg inBlock]
  · intro left right cell agree
    have decomposition := Nat.div_add_mod cell (half + half)
    have position_lt := Nat.mod_lt cell (show 0 < half + half by omega)
    have sameBlock : ∀ other, (half + half) * (cell / (half + half)) ≤ other →
        other < (half + half) * (cell / (half + half)) + (half + half) →
          left other = right other := by
      intro other lower upper
      apply agree
      apply Nat.div_eq_of_lt_le
      · rwa [mul_comm]
      · rw [Nat.add_mul, one_mul, mul_comm _ (half + half)]
        exact upper
    simp only [layerCell]
    split
    · rw [sameBlock cell (by omega) (by omega), sameBlock (cell + half) (by omega) (by omega)]
    · rw [sameBlock cell (by omega) (by omega), sameBlock (cell - half) (by omega) (by omega)]

/-- The intermediate value `v0`, `v1`, `v2` or `v3` for a cell. -/
def lastInnerCell (x : ℕ → Cell) (cell : ℕ) : Cell :=
  if cell % 4 < 2 then operations.add (x cell) (x (cell + 2))
  else if cell % 4 = 2 then operations.sub (x (cell - 2)) (x cell)
  else operations.twiddled 1 (x (cell - 2)) (x cell)

/-- The final value `z0`, `z1`, `z2` or `z3` for a cell. -/
def lastOuterCell (v : ℕ → Cell) (cell : ℕ) : Cell :=
  if cell % 2 = 0 then operations.add (v cell) (v (cell + 1))
  else operations.sub (v (cell - 1)) (v cell)

theorem lastBlock_apply (r : ℕ) (x : ℕ → Cell) (cell : ℕ) :
    operations.lastBlock (4 * r) x cell =
      if cell / 4 = r then operations.lastOuterCell (operations.lastInnerCell x) cell
      else x cell := by
  by_cases inBlock : cell / 4 = r
  · rw [if_pos inBlock]
    have position_lt : cell % 4 < 4 := Nat.mod_lt cell (by omega)
    have cell_eq : cell = 4 * r + cell % 4 := by omega
    generalize cell % 4 = position at position_lt cell_eq
    have cases : position = 0 ∨ position = 1 ∨ position = 2 ∨ position = 3 := by omega
    have even : 4 * r % 2 = 0 := by omega
    have parity : ∀ offset, (4 * r + offset) % 2 = offset % 2 := by omega
    rcases cases with rfl | rfl | rfl | rfl <;> subst cell_eq <;>
      simp [lastBlock, lastOuterCell, lastInnerCell, even, parity, Nat.add_assoc]
  · rw [if_neg inBlock]
    simp only [lastBlock, Function.update_apply]
    rw [if_neg (by omega), if_neg (by omega), if_neg (by omega), if_neg (by omega)]

theorem lastBlocks_apply (M : ℕ) (x : ℕ → Cell) (cell : ℕ) :
    forLoop M (fun r x => operations.lastBlock (4 * r) x) x cell =
      if cell / 4 < M then operations.lastOuterCell (operations.lastInnerCell x) cell
      else x cell := by
  apply forLoop_apply_of_owner (fun cell => cell / 4)
    (fun x cell => operations.lastOuterCell (operations.lastInnerCell x) cell)
  · intro r x cell _
    exact operations.lastBlock_apply r x cell
  · intro left right cell agree
    have inner : ∀ other, other / 4 = cell / 4 →
        operations.lastInnerCell left other = operations.lastInnerCell right other := by
      intro other sameBlock
      simp only [lastInnerCell]
      split
      · rw [agree other sameBlock, agree (other + 2) (by omega)]
      · rw [agree other sameBlock, agree (other - 2) (by omega)]
    simp only [lastOuterCell]
    split
    · rw [inner cell rfl, inner (cell + 1) (by omega)]
    · rw [inner cell rfl, inner (cell - 1) (by omega)]

end ButterflyOperations

/-! ## Powers of two -/

theorem opposite_lt {half M cell : ℕ} (cell_lt : cell < M * (half + half))
    (first : cell % (half + half) < half) : cell + half < M * (half + half) := by
  have decomposition := Nat.div_add_mod cell (half + half)
  have block_lt : cell / (half + half) < M := Nat.div_lt_of_lt_mul (by rwa [mul_comm])
  have block_end : (half + half) * (cell / (half + half) + 1) ≤ (half + half) * M :=
    Nat.mul_le_mul_left _ block_lt
  rw [Nat.mul_add, mul_one, mul_comm (half + half) M] at block_end
  omega

theorem two_pow_succ_sub {levels layer : ℕ} (layer_lt : layer < levels) :
    2 ^ (levels - layer) = 2 ^ (levels - 1 - layer) + 2 ^ (levels - 1 - layer) := by
  rw [← two_mul, ← pow_succ']
  congr 1
  omega

theorem two_pow_eq_blocks {levels layer : ℕ} (layer_lt : layer < levels) :
    2 ^ levels = 2 ^ layer * (2 ^ (levels - 1 - layer) + 2 ^ (levels - 1 - layer)) := by
  rw [← two_pow_succ_sub layer_lt, ← pow_add]
  congr 1
  omega

theorem two_pow_div_blocks {levels layer : ℕ} (layer_lt : layer < levels) :
    2 ^ levels / 2 ^ layer = 2 ^ (levels - 1 - layer) + 2 ^ (levels - 1 - layer) := by
  rw [two_pow_eq_blocks layer_lt, Nat.mul_div_cancel_left _ (Nat.two_pow_pos layer)]

/-- The group of a layer follows that of the layer before it. -/
theorem twiddleOffset_succ {levels layer : ℕ} (layer_lt : layer < levels) :
    2 ^ levels - 2 ^ (levels - layer) +
        (2 ^ (levels - 1 - layer) + 2 ^ (levels - 1 - layer)) / 2 =
      2 ^ levels - 2 ^ (levels - (layer + 1)) := by
  have smaller : 2 ^ (levels - layer) ≤ 2 ^ levels :=
    Nat.pow_le_pow_right (by omega) (by omega)
  have halved := two_pow_succ_sub layer_lt
  have next : levels - (layer + 1) = levels - 1 - layer := by omega
  rw [next, halved]
  rw [halved] at smaller
  generalize 2 ^ (levels - 1 - layer) = half at smaller
  generalize 2 ^ levels = full at smaller
  omega

/-! ## Simulation -/

section Simulation

variable {Cell : Type u} {Ring : Type v} [CommRing Ring] (stands : Cell → Ring → Prop)

namespace ButterflyOperations

/-- An entry of the table stands for a twiddle. -/
def Multiplies (operations : ButterflyOperations Cell) (index : ℕ) (twiddle : Ring) : Prop :=
  ∀ ⦃u0 u1 : Cell⦄ ⦃a0 a1 : Ring⦄, stands u0 a0 → stands u1 a1 →
    stands (operations.twiddled index u0 u1) ((a0 - a1) * twiddle)

/--
The operations stand for those of the ring. The table has a group for each layer, each of
them half as long as the one before it.
-/
structure Simulates (operations : ButterflyOperations Cell) (twiddle : ℕ → ℕ → Ring)
    (levels : ℕ) : Prop where
  add : ∀ ⦃u0 u1 : Cell⦄ ⦃a0 a1 : Ring⦄, stands u0 a0 → stands u1 a1 →
    stands (operations.add u0 u1) (a0 + a1)
  sub : ∀ ⦃u0 u1 : Cell⦄ ⦃a0 a1 : Ring⦄, stands u0 a0 → stands u1 a1 →
    stands (operations.sub u0 u1) (a0 - a1)
  main : ∀ layer, layer + 2 < levels → ∀ i < 2 ^ (levels - 1 - layer),
    operations.Multiplies stands (2 ^ levels - 2 ^ (levels - layer) + i) (twiddle layer i)
  inner : 2 ≤ levels → operations.Multiplies stands (2 ^ levels - 4 + 1) (twiddle (levels - 2) 1)
  /-- The last two layers read no entry for their first twiddles. -/
  trivial : ∀ layer, levels ≤ layer + 2 → twiddle layer 0 = 1

variable {stands} {operations : ButterflyOperations Cell}

section Layers

variable (add : ∀ ⦃u0 u1 : Cell⦄ ⦃a0 a1 : Ring⦄, stands u0 a0 → stands u1 a1 →
    stands (operations.add u0 u1) (a0 + a1))
  {M : ℕ} {x : ℕ → Cell} {values twiddle : ℕ → Ring}

include add

/-- One layer on the cells simulates one layer on the values. -/
theorem layer_stands {half : ℕ} (half_pos : 0 < half)
    (represents : ∀ cell < M * (half + half), stands (x cell) (values cell))
    (multiplies : ∀ i < half, operations.Multiplies stands i (twiddle i)) :
    ∀ cell < M * (half + half), stands (operations.layer M (half + half) x cell)
      (decimationLayer twiddle half values cell) := by
  intro cell cell_lt
  have block_lt : cell / (half + half) < M := Nat.div_lt_of_lt_mul (by rwa [mul_comm])
  have position_lt := Nat.mod_lt cell (show 0 < half + half by omega)
  have position_le := Nat.mod_le cell (half + half)
  rw [operations.layer_apply M half_pos, if_pos block_lt, layerCell, decimationLayer]
  have here := represents cell cell_lt
  by_cases first : cell % (half + half) < half
  · simp only [if_pos first]
    exact add here (represents (cell + half) (opposite_lt cell_lt first))
  · simp only [if_neg first]
    exact multiplies (cell % (half + half) - half) (by omega)
      (represents (cell - half) (by omega)) here

variable (sub : ∀ ⦃u0 u1 : Cell⦄ ⦃a0 a1 : Ring⦄, stands u0 a0 → stands u1 a1 →
    stands (operations.sub u0 u1) (a0 - a1))
  (represents : ∀ cell < M * 4, stands (x cell) (values cell)) (trivial : twiddle 0 = 1)

include sub represents trivial

theorem lastInnerCell_stands (multiplies : operations.Multiplies stands 1 (twiddle 1)) :
    ∀ cell < M * 4,
      stands (operations.lastInnerCell x cell) (decimationLayer twiddle 2 values cell) := by
  intro cell cell_lt
  have here := represents cell cell_lt
  simp only [lastInnerCell, decimationLayer, Nat.reduceAdd]
  by_cases first : cell % 4 < 2
  · rw [if_pos first, if_pos first]
    exact add here (represents (cell + 2) (by omega))
  · have opposite := represents (cell - 2) (by omega)
    rw [if_neg first, if_neg first]
    by_cases untwiddled : cell % 4 = 2
    · rw [if_pos untwiddled, untwiddled, Nat.sub_self, trivial, mul_one]
      exact sub opposite here
    · rw [if_neg untwiddled, show cell % 4 - 2 = 1 by omega]
      exact multiplies opposite here

theorem lastOuterCell_stands :
    ∀ cell < M * 4,
      stands (operations.lastOuterCell x cell) (decimationLayer twiddle 1 values cell) := by
  intro cell cell_lt
  have here := represents cell cell_lt
  simp only [lastOuterCell, decimationLayer, Nat.reduceAdd]
  by_cases first : cell % 2 = 0
  · rw [if_pos first, if_pos (by omega)]
    exact add here (represents (cell + 1) (by omega))
  · rw [if_neg first, if_neg (by omega), show cell % 2 - 1 = 0 by omega, trivial, mul_one]
    exact sub (represents (cell - 1) (by omega)) here

end Layers

variable {twiddle : ℕ → ℕ → Ring} {levels : ℕ} {x : ℕ → Cell} {values : ℕ → Ring}

/-- The state of the main loop after some layers. -/
theorem Simulates.mainLayers (simulates : operations.Simulates stands twiddle levels)
    (represents : ∀ cell < 2 ^ levels, stands (x cell) (values cell)) {count : ℕ}
    (count_le : count + 2 ≤ levels) :
    (∀ cell < 2 ^ levels, stands ((operations.mainLayers (2 ^ levels) count x).1 cell)
        (twiddledLayers twiddle levels values count cell)) ∧
      (operations.mainLayers (2 ^ levels) count x).2 =
        operations.drop (2 ^ levels - 2 ^ (levels - count)) := by
  refine forLoop_induction _ _ _ (fun done (state : (ℕ → Cell) × ButterflyOperations Cell) =>
    (∀ cell < 2 ^ levels, stands (state.1 cell)
        (twiddledLayers twiddle levels values done cell)) ∧
      state.2 = operations.drop (2 ^ levels - 2 ^ (levels - done))) ?_ ?_
  · refine ⟨represents, ?_⟩
    simp [drop]
  · rintro done ⟨cells, current⟩ done_lt ⟨simulated, rfl⟩
    have blocks := two_pow_eq_blocks (show done < levels by omega)
    have size := two_pow_div_blocks (show done < levels by omega)
    have offset := twiddleOffset_succ (show done < levels by omega)
    refine ⟨?_, ?_⟩
    · have layer := @layer_stands _ _ _ stands
        (operations.drop (2 ^ levels - 2 ^ (levels - done))) simulates.add (2 ^ done) cells _ _ _
        (Nat.two_pow_pos (levels - 1 - done)) (by rwa [← blocks])
        (simulates.main done (by omega))
      rw [← blocks] at layer
      simp only [size, twiddledLayers]
      exact layer
    · simp only [size, drop, ← offset, Nat.add_assoc]

/-- The network on the cells stands for the network in the ring. -/
theorem Simulates.network (simulates : operations.Simulates stands twiddle levels)
    (represents : ∀ cell < 2 ^ levels, stands (x cell) (values cell)) :
    ∀ cell < 2 ^ levels, stands (operations.network (2 ^ levels) x cell)
      (twiddledLayers twiddle levels values levels cell) := by
  match levels with
  | 0 => simpa [ButterflyOperations.network, twiddledLayers] using represents
  | 1 =>
      intro cell cell_lt
      have cases : cell = 0 ∨ cell = 1 := by omega
      have trivial : twiddle 0 0 = 1 := simulates.trivial 0 (by omega)
      have first := represents 0 (by omega)
      have second := represents 1 (by omega)
      rcases cases with rfl | rfl
      · simpa [ButterflyOperations.network, twiddledLayers, decimationLayer] using
          simulates.add first second
      · simpa [ButterflyOperations.network, twiddledLayers, decimationLayer, trivial] using
          simulates.sub first second
  | rest + 2 =>
      have four_le : 2 ^ (rest + 2) = 2 ^ rest * 4 := by ring
      have rest_pos := Nat.two_pow_pos rest
      rw [ButterflyOperations.network, if_neg (by omega), if_neg (by omega)]
      simp only [Nat.log2_two_pow, Nat.add_sub_cancel]
      rcases simulates.mainLayers represents (show rest + 2 ≤ rest + 2 by omega) with
        ⟨simulated, position⟩
      have inner : (operations.drop (2 ^ (rest + 2) - 4)).Multiplies stands 1 (twiddle rest 1) :=
        simulates.inner (by omega)
      have remaining : 2 ^ (rest + 2 - rest) = 4 := by rw [Nat.add_sub_cancel_left]; rfl
      rw [position, remaining]
      rw [four_le] at simulated inner ⊢
      have innerLayer := @lastInnerCell_stands _ _ _ stands (operations.drop (2 ^ rest * 4 - 4))
        simulates.add _ _ _ _ simulates.sub simulated (simulates.trivial rest le_rfl) inner
      have outerLayer := @lastOuterCell_stands _ _ _ stands (operations.drop (2 ^ rest * 4 - 4))
        simulates.add _ _ _ _ simulates.sub innerLayer (simulates.trivial (rest + 1) (by omega))
      have lastLayers : twiddledLayers twiddle (rest + 2) values (rest + 2) =
          decimationLayer (twiddle (rest + 1)) 1 (decimationLayer (twiddle rest) 2
            (twiddledLayers twiddle (rest + 2) values rest)) := by
        simp [twiddledLayers]
      intro cell cell_lt
      rw [lastBlocks_apply, if_pos (by omega), lastLayers]
      exact outerLayer cell cell_lt

end ButterflyOperations

end Simulation

/-! ## Words below twice a modulus -/

section LazyWords

variable {p u0 u1 : ℕ}

theorem cast_add_two_mul_sub (u1_lt : u1 < 2 * p) :
    ((u0 + 2 * p - u1 : ℕ) : ZMod p) = u0 - u1 := by
  rw [Nat.cast_sub (by omega), Nat.cast_add, Nat.cast_mul, ZMod.natCast_self, mul_zero, add_zero]

/-- A sum that is reduced once, if it reaches `2 * p`. -/
theorem lazySum_stands (u0_lt : u0 < 2 * p) (u1_lt : u1 < 2 * p) :
    (if 2 * p ≤ u0 + u1 then u0 + u1 - 2 * p else u0 + u1) < 2 * p ∧
      ((if 2 * p ≤ u0 + u1 then u0 + u1 - 2 * p else u0 + u1 : ℕ) : ZMod p) = u0 + u1 := by
  split
  next reaches =>
    refine ⟨by omega, ?_⟩
    rw [Nat.cast_sub reaches, Nat.cast_mul, ZMod.natCast_self, mul_zero, sub_zero, Nat.cast_add]
  next below => exact ⟨not_le.mp below, Nat.cast_add u0 u1⟩

/-- A difference that is lifted once, if it is negative. -/
theorem lazyDifference_stands (u0_lt : u0 < 2 * p) (u1_lt : u1 < 2 * p) :
    (if u0 < u1 then u0 + 2 * p - u1 else u0 - u1) < 2 * p ∧
      ((if u0 < u1 then u0 + 2 * p - u1 else u0 - u1 : ℕ) : ZMod p) = u0 - u1 := by
  split
  next => exact ⟨by omega, cast_add_two_mul_sub u1_lt⟩
  next le => exact ⟨by omega, Nat.cast_sub (not_lt.mp le)⟩

end LazyWords

end Xpir
