import Mathlib.Algebra.BigOperators.Intervals
import Mathlib.Algebra.Order.BigOperators.Group.Finset
import Mathlib.Algebra.BigOperators.Ring.Finset
import Mathlib.Data.Nat.Factorization.Basic
import Mathlib.RingTheory.AdjoinRoot
import Mathlib.Tactic.LinearCombination
import Mathlib.Tactic.Ring

/-!
# Discrete Fourier transforms of power-of-two size

The transform of size `2 ^ levels` over a commutative ring evaluates a
polynomial at the powers of a root. Only one property of the root is used: its
power `2 ^ (levels - 1)` is `-1`. In particular the ring need not be a domain
and the size need not be prime to anything except where the inverse transform
divides by it.

`decimationLayers` is the decimation-in-frequency network on the whole array:
layer after layer, every block is replaced by the two half-size blocks holding
the even and the odd frequencies. After all layers the frequencies stand in
bit-reversed order (`decimationLayers_apply`).

The second half of the file is about the ring of polynomials modulo `X ^ n + 1`.
Twisting the coefficients by the powers of a square root of the transform's root
turns the transform into evaluation at the roots of `X ^ n + 1`, so pointwise
products correspond to negacyclic ones and the twisted inverse transform
recovers the coefficients.
-/

namespace Xpir

open Finset Polynomial

universe u

/-! ## Bit reversal -/

/-- The `levels`-bit reversal of an index. -/
def bitReverse : ℕ → ℕ → ℕ
  | 0, _ => 0
  | levels + 1, index => 2 ^ levels * (index % 2) + bitReverse levels (index / 2)

theorem bitReverse_lt (levels index : ℕ) : bitReverse levels index < 2 ^ levels := by
  induction levels generalizing index with
  | zero => simp [bitReverse]
  | succ levels ih =>
      have tail := ih (index / 2)
      have head : 2 ^ levels * (index % 2) ≤ 2 ^ levels * 1 :=
        Nat.mul_le_mul_left _ (by omega)
      rw [bitReverse, pow_succ]
      omega

theorem bitReverse_two_mul (levels index : ℕ) :
    bitReverse (levels + 1) (2 * index) = bitReverse levels index := by
  simp [bitReverse]

theorem bitReverse_two_mul_add_one (levels index : ℕ) :
    bitReverse (levels + 1) (2 * index + 1) = 2 ^ levels + bitReverse levels index := by
  rw [bitReverse, show (2 * index + 1) % 2 = 1 by omega,
    show (2 * index + 1) / 2 = index by omega, mul_one]

/-- A new leading bit of the index becomes the lowest bit of its reversal. -/
theorem bitReverse_add_leading (levels : ℕ) {low bit : ℕ} (low_lt : low < 2 ^ levels)
    (bit_lt : bit < 2) :
    bitReverse (levels + 1) (low + 2 ^ levels * bit) = 2 * bitReverse levels low + bit := by
  induction levels generalizing low with
  | zero =>
      have low_eq : low = 0 := by simpa using low_lt
      simp [bitReverse, low_eq, Nat.mod_eq_of_lt bit_lt]
  | succ levels ih =>
      have lowest : (low + 2 ^ (levels + 1) * bit) % 2 = low % 2 := by
        rw [pow_succ', mul_assoc, Nat.add_mul_mod_self_left]
      have rest : (low + 2 ^ (levels + 1) * bit) / 2 = low / 2 + 2 ^ levels * bit := by
        rw [pow_succ', mul_assoc, Nat.add_mul_div_left _ _ (by omega)]
      have half_lt : low / 2 < 2 ^ levels := by
        rw [pow_succ] at low_lt
        omega
      rw [bitReverse, lowest, rest, ih half_lt, bitReverse]
      ring

theorem bitReverse_bitReverse {levels index : ℕ} (index_lt : index < 2 ^ levels) :
    bitReverse levels (bitReverse levels index) = index := by
  induction levels generalizing index with
  | zero =>
      have index_eq : index = 0 := by simpa using index_lt
      simp [bitReverse, index_eq]
  | succ levels ih =>
      have half_lt : index / 2 < 2 ^ levels := by
        rw [pow_succ] at index_lt
        omega
      have reversed : bitReverse (levels + 1) index =
          bitReverse levels (index / 2) + 2 ^ levels * (index % 2) := by
        rw [bitReverse, add_comm]
      rw [reversed, bitReverse_add_leading levels (bitReverse_lt levels (index / 2))
        (Nat.mod_lt index (by omega)), ih half_lt]
      omega

/-! ## The transform -/

section Transform

variable {Ring : Type u} [CommRing Ring]

/-- The value of a polynomial of degree below `size` at `root ^ frequency`. -/
def dft (root : Ring) (size : ℕ) (values : ℕ → Ring) (frequency : ℕ) : Ring :=
  ∑ index ∈ range size, values index * root ^ (index * frequency)

theorem dft_congr {root : Ring} {size : ℕ} {left right : ℕ → Ring}
    (agree : ∀ index < size, left index = right index) (frequency : ℕ) :
    dft root size left frequency = dft root size right frequency := by
  apply sum_congr rfl
  intro index index_mem
  rw [agree index (mem_range.mp index_mem)]

theorem dft_add_halves (root : Ring) (half : ℕ) (values : ℕ → Ring) (frequency : ℕ) :
    dft root (half + half) values frequency =
      ∑ index ∈ range half, (values index +
        values (half + index) * root ^ (half * frequency)) * root ^ (index * frequency) := by
  rw [dft, sum_range_add, ← sum_add_distrib]
  apply sum_congr rfl
  intro index _
  rw [add_mul half index frequency, pow_add]
  ring

/-- The even frequencies are the transform of the sums of opposite cells. -/
theorem dft_even {root : Ring} {half : ℕ} (halfway : root ^ half = -1)
    (values : ℕ → Ring) (frequency : ℕ) :
    dft root (half + half) values (2 * frequency) =
      dft (root ^ 2) half (fun index => values index + values (half + index)) frequency := by
  rw [dft_add_halves, dft]
  apply sum_congr rfl
  intro index _
  rw [pow_mul, halfway, pow_mul (-1 : Ring), neg_one_sq, one_pow, mul_one, ← pow_mul root 2]
  congr 2
  ring

/-- The odd frequencies are the transform of the twiddled differences. -/
theorem dft_odd {root : Ring} {half : ℕ} (halfway : root ^ half = -1)
    (values : ℕ → Ring) (frequency : ℕ) :
    dft root (half + half) values (2 * frequency + 1) =
      dft (root ^ 2) half
        (fun index => (values index - values (half + index)) * root ^ index) frequency := by
  rw [dft_add_halves, dft]
  apply sum_congr rfl
  intro index _
  have opposite : root ^ (half * (2 * frequency + 1)) = -1 := by
    rw [pow_mul, halfway, pow_succ, pow_mul, neg_one_sq, one_pow, one_mul]
  rw [opposite, ← pow_mul root 2, mul_assoc _ (root ^ index), ← pow_add]
  congr 2
  · ring
  · ring

/-- One decimation-in-frequency layer on blocks of `half + half` cells. -/
def decimationLayer (twiddle : ℕ → Ring) (half : ℕ) (values : ℕ → Ring) (cell : ℕ) : Ring :=
  if cell % (half + half) < half then values cell + values (cell + half)
  else (values (cell - half) - values cell) * twiddle (cell % (half + half) - half)

/-- The network of layers with block sizes `2 ^ levels, 2 ^ (levels - 1), …`. -/
def decimationLayers (root : Ring) (levels : ℕ) (values : ℕ → Ring) : ℕ → ℕ → Ring
  | 0 => values
  | layer + 1 =>
      decimationLayer (fun index => (root ^ 2 ^ layer) ^ index) (2 ^ (levels - 1 - layer))
        (decimationLayers root levels values layer)

/-- The network with arbitrary twiddles in each layer. -/
def twiddledLayers (twiddle : ℕ → ℕ → Ring) (levels : ℕ) (values : ℕ → Ring) : ℕ → ℕ → Ring
  | 0 => values
  | layer + 1 =>
      decimationLayer (twiddle layer) (2 ^ (levels - 1 - layer))
        (twiddledLayers twiddle levels values layer)

theorem twiddledLayers_powers (root : Ring) (levels : ℕ) (values : ℕ → Ring) (count : ℕ) :
    twiddledLayers (fun layer index => (root ^ 2 ^ layer) ^ index) levels values count =
      decimationLayers root levels values count := by
  induction count with
  | zero => rfl
  | succ count ih => rw [twiddledLayers, decimationLayers, ih]

theorem decimationLayer_first (twiddle : ℕ → Ring) {half : ℕ} (values : ℕ → Ring)
    (block : ℕ) {index : ℕ} (index_lt : index < half) :
    decimationLayer twiddle half values (2 * block * half + index) =
      values (block * (half + half) + index) +
        values (block * (half + half) + (half + index)) := by
  have cell : 2 * block * half + index = block * (half + half) + index := by ring
  rw [decimationLayer, cell, Nat.mul_add_mod', Nat.mod_eq_of_lt (by omega), if_pos index_lt]
  congr 2
  ring

theorem decimationLayer_second (twiddle : ℕ → Ring) {half : ℕ} (values : ℕ → Ring)
    (block : ℕ) {index : ℕ} (index_lt : index < half) :
    decimationLayer twiddle half values ((2 * block + 1) * half + index) =
      (values (block * (half + half) + index) -
        values (block * (half + half) + (half + index))) * twiddle index := by
  have cell : (2 * block + 1) * half + index = block * (half + half) + (half + index) := by ring
  have opposite : block * (half + half) + (half + index) - half =
      block * (half + half) + index := by omega
  rw [decimationLayer, cell, Nat.mul_add_mod', Nat.mod_eq_of_lt (by omega), if_neg (by omega),
    opposite, Nat.add_sub_cancel_left]

/--
The invariant of the network. The blocks present after `layer` layers hold the
frequencies of the whole transform whose low bits are the reversed block number.
-/
theorem dft_decimationLayers_block {root : Ring} {levels : ℕ} (values : ℕ → Ring)
    (halfway : 0 < levels → root ^ 2 ^ (levels - 1) = -1) {layer : ℕ} (layer_le : layer ≤ levels)
    {block : ℕ} (block_lt : block < 2 ^ layer) (frequency : ℕ) :
    dft (root ^ 2 ^ layer) (2 ^ (levels - layer))
        (fun index => decimationLayers root levels values layer
          (block * 2 ^ (levels - layer) + index)) frequency =
      dft root (2 ^ levels) values (frequency * 2 ^ layer + bitReverse layer block) := by
  induction layer generalizing block frequency with
  | zero =>
      obtain rfl : block = 0 := by simpa using block_lt
      simp [decimationLayers, bitReverse]
  | succ layer ih =>
      have half_eq : levels - 1 - layer = levels - (layer + 1) := by omega
      have size_eq : 2 ^ (levels - layer) =
          2 ^ (levels - (layer + 1)) + 2 ^ (levels - (layer + 1)) := by
        rw [← two_mul, ← pow_succ']
        congr 1
        omega
      have opposite : (root ^ 2 ^ layer) ^ 2 ^ (levels - (layer + 1)) = -1 := by
        rw [← pow_mul, ← pow_add, ← halfway (by omega)]
        congr 2
        omega
      have squared : root ^ 2 ^ (layer + 1) = (root ^ 2 ^ layer) ^ 2 := by
        rw [← pow_mul, pow_succ]
      have parent_lt : block / 2 < 2 ^ layer := by
        rw [pow_succ] at block_lt
        omega
      rcases Nat.even_or_odd' block with ⟨parent, rfl | rfl⟩
      · have parentFrequencies := ih (by omega) (show parent < 2 ^ layer by omega) (2 * frequency)
        rw [size_eq, dft_even opposite] at parentFrequencies
        rw [squared, bitReverse_two_mul,
          show frequency * 2 ^ (layer + 1) = 2 * frequency * 2 ^ layer by ring,
          ← parentFrequencies]
        apply dft_congr
        intro index index_lt
        rw [decimationLayers, half_eq]
        exact decimationLayer_first _ _ parent index_lt
      · have parentFrequencies := ih (by omega) (show parent < 2 ^ layer by omega) (2 * frequency + 1)
        rw [size_eq, dft_odd opposite] at parentFrequencies
        rw [squared, bitReverse_two_mul_add_one,
          show frequency * 2 ^ (layer + 1) + (2 ^ layer + bitReverse layer parent) =
            (2 * frequency + 1) * 2 ^ layer + bitReverse layer parent by ring,
          ← parentFrequencies]
        apply dft_congr
        intro index index_lt
        rw [decimationLayers, half_eq]
        exact decimationLayer_second _ _ parent index_lt

/-- The network computes the transform in bit-reversed order. -/
theorem decimationLayers_apply {root : Ring} {levels : ℕ} (values : ℕ → Ring)
    (halfway : 0 < levels → root ^ 2 ^ (levels - 1) = -1) {cell : ℕ}
    (cell_lt : cell < 2 ^ levels) :
    decimationLayers root levels values levels cell =
      dft root (2 ^ levels) values (bitReverse levels cell) := by
  have single := dft_decimationLayers_block values halfway le_rfl cell_lt 0
  simpa [dft] using single

/-! ## The inverse transform -/

theorem sum_pow_range_two_pow (ratio : Ring) (levels : ℕ) :
    ∑ index ∈ range (2 ^ levels), ratio ^ index =
      ∏ level ∈ range levels, (1 + ratio ^ 2 ^ level) := by
  induction levels with
  | zero => simp
  | succ levels ih =>
      rw [prod_range_succ, ← ih, pow_succ, mul_two, sum_range_add, mul_add, mul_one,
        Finset.sum_mul]
      congr 1
      apply sum_congr rfl
      intro index _
      rw [pow_add, mul_comm]

/-- The powers of a nontrivial power of the root sum to zero. -/
theorem sum_pow_eq_zero {root : Ring} {levels : ℕ}
    (halfway : 0 < levels → root ^ 2 ^ (levels - 1) = -1) {step : ℕ} (step_pos : 0 < step)
    (step_lt : step < 2 ^ levels) :
    ∑ index ∈ range (2 ^ levels), (root ^ step) ^ index = 0 := by
  -- The factor for the lowest set bit of `step` vanishes.
  rcases Nat.exists_eq_two_pow_mul_odd (Nat.pos_iff_ne_zero.mp step_pos) with ⟨low, odd, odd_odd, rfl⟩
  have low_lt : low < levels := by
    have : 2 ^ low < 2 ^ levels :=
      lt_of_le_of_lt (Nat.le_mul_of_pos_right _ odd_odd.pos) step_lt
    exact (Nat.pow_lt_pow_iff_right (by omega)).mp this
  rw [sum_pow_range_two_pow]
  apply prod_eq_zero (mem_range.mpr (show levels - 1 - low < levels by omega))
  have exponent : 2 ^ low * odd * 2 ^ (levels - 1 - low) = 2 ^ (levels - 1) * odd := by
    rw [mul_right_comm, ← pow_add]
    congr 2
    omega
  rw [← pow_mul, exponent, pow_mul, halfway (by omega), odd_odd.neg_one_pow, add_neg_cancel]

/-- Transforming twice, the second time at the inverse root, multiplies by the size. -/
theorem dft_dft_inverse {root inverse : Ring} {levels : ℕ}
    (halfway : 0 < levels → root ^ 2 ^ (levels - 1) = -1)
    (inverse_mul : root * inverse = 1) (values : ℕ → Ring) {cell : ℕ}
    (cell_lt : cell < 2 ^ levels) :
    dft inverse (2 ^ levels) (dft root (2 ^ levels) values) cell =
      (2 ^ levels : ℕ) * values cell := by
  have cancel : ∀ count : ℕ, root ^ count * inverse ^ count = 1 := by
    intro count
    rw [← mul_pow, inverse_mul, one_pow]
  have halfwayInverse : 0 < levels → inverse ^ 2 ^ (levels - 1) = -1 := by
    intro levels_pos
    have product := cancel (2 ^ (levels - 1))
    rw [halfway levels_pos] at product
    linear_combination -product
  calc dft inverse (2 ^ levels) (dft root (2 ^ levels) values) cell
      = ∑ index ∈ range (2 ^ levels), values index *
          ∑ frequency ∈ range (2 ^ levels),
            root ^ (index * frequency) * inverse ^ (frequency * cell) := by
        simp only [dft, Finset.sum_mul, Finset.mul_sum]
        rw [Finset.sum_comm]
        simp only [mul_assoc]
    _ = ∑ index ∈ range (2 ^ levels), values index *
          if index = cell then ((2 ^ levels : ℕ) : Ring) else 0 := by
        apply sum_congr rfl
        intro index index_mem
        congr 1
        rcases lt_trichotomy index cell with before | rfl | after
        · rw [if_neg before.ne, ← sum_pow_eq_zero halfwayInverse
            (show 0 < cell - index by omega) (show cell - index < 2 ^ levels by omega)]
          apply sum_congr rfl
          intro frequency _
          have split : frequency * cell = index * frequency + (cell - index) * frequency := by
            rw [← add_mul, Nat.add_sub_cancel' before.le, mul_comm]
          rw [split, pow_add, ← mul_assoc, cancel, one_mul, pow_mul]
        · rw [if_pos rfl]
          simp [mul_comm _ index, cancel]
        · rw [if_neg after.ne', ← sum_pow_eq_zero halfway
            (show 0 < index - cell by omega)
            (show index - cell < 2 ^ levels by have := mem_range.mp index_mem; omega)]
          apply sum_congr rfl
          intro frequency _
          have split : index * frequency = (index - cell) * frequency + frequency * cell := by
            rw [mul_comm frequency cell, ← add_mul, Nat.sub_add_cancel after.le]
          rw [split, pow_add, mul_assoc, cancel, mul_one, pow_mul]
    _ = (2 ^ levels : ℕ) * values cell := by
        simp only [mul_ite, mul_zero, sum_ite_eq', mem_range, if_pos cell_lt]
        ring

end Transform

/-! ## Polynomials modulo `X ^ n + 1` -/

section Negacyclic

variable {Ring : Type u} [CommRing Ring]

/-- The value at `point` of the polynomial with the given coefficients. -/
def evaluate (point : Ring) (size : ℕ) (values : ℕ → Ring) : Ring :=
  ∑ index ∈ range size, values index * point ^ index

/-- The coefficients of a product modulo `X ^ size + 1`. -/
def negacyclicMul (size : ℕ) (left right : ℕ → Ring) (cell : ℕ) : Ring :=
  ∑ index ∈ range size, left index *
    if index ≤ cell then right (cell - index) else -right (size + cell - index)

/-- The values at the roots of `X ^ 2 ^ levels + 1`, in bit-reversed order. -/
def negacyclicTransform (phi : Ring) (levels : ℕ) (values : ℕ → Ring) (cell : ℕ) : Ring :=
  dft (phi ^ 2) (2 ^ levels) (fun index => values index * phi ^ index) (bitReverse levels cell)

theorem negacyclicTransform_eq_evaluate (phi : Ring) (levels : ℕ) (values : ℕ → Ring)
    (cell : ℕ) :
    negacyclicTransform phi levels values cell =
      evaluate (phi ^ (2 * bitReverse levels cell + 1)) (2 ^ levels) values := by
  rw [negacyclicTransform, dft, evaluate]
  apply sum_congr rfl
  intro index _
  rw [mul_assoc, ← pow_mul, ← pow_add, ← pow_mul]
  congr 2
  ring

theorem negacyclicTransform_congr {phi : Ring} {levels : ℕ} {left right : ℕ → Ring}
    (agree : ∀ index < 2 ^ levels, left index = right index) (cell : ℕ) :
    negacyclicTransform phi levels left cell = negacyclicTransform phi levels right cell := by
  apply dft_congr
  intro index index_lt
  rw [agree index index_lt]

theorem negacyclicTransform_sum {Index : Type*} (phi : Ring) (levels : ℕ)
    (indices : Finset Index) (values : Index → ℕ → Ring) (cell : ℕ) :
    negacyclicTransform phi levels (fun index => ∑ i ∈ indices, values i index) cell =
      ∑ i ∈ indices, negacyclicTransform phi levels (values i) cell := by
  simp only [negacyclicTransform_eq_evaluate, evaluate, Finset.sum_mul]
  exact Finset.sum_comm

/-- Multiplication by `X ^ shift` rotates the coefficients and negates those that wrap. -/
theorem evaluate_shift {point : Ring} {size : ℕ} (wrap : point ^ size = -1)
    (values : ℕ → Ring) {shift : ℕ} (shift_le : shift ≤ size) :
    evaluate point size (fun cell =>
        if shift ≤ cell then values (cell - shift) else -values (size + cell - shift)) =
      point ^ shift * evaluate point size values := by
  obtain ⟨rest, rfl⟩ := Nat.exists_eq_add_of_le shift_le
  rw [evaluate, sum_range_add, evaluate, add_comm shift rest, sum_range_add, mul_add,
    add_comm (point ^ shift * _)]
  congr 1
  · rw [Finset.mul_sum]
    apply sum_congr rfl
    intro cell cell_mem
    have cell_lt := mem_range.mp cell_mem
    rw [if_neg (by omega), show rest + shift + cell - shift = rest + cell by omega]
    have wrapped : point ^ shift * point ^ (rest + cell) = -point ^ cell := by
      rw [← pow_add, show shift + (rest + cell) = shift + rest + cell by ring, pow_add, wrap,
        neg_one_mul]
    linear_combination -values (rest + cell) * wrapped
  · rw [Finset.mul_sum]
    apply sum_congr rfl
    intro cell _
    rw [if_pos (by omega), Nat.add_sub_cancel_left, pow_add]
    ring

theorem evaluate_negacyclicMul {point : Ring} {size : ℕ} (wrap : point ^ size = -1)
    (left right : ℕ → Ring) :
    evaluate point size (negacyclicMul size left right) =
      evaluate point size left * evaluate point size right := by
  have expand : evaluate point size (negacyclicMul size left right) =
      ∑ index ∈ range size, left index * evaluate point size (fun cell =>
        if index ≤ cell then right (cell - index) else -right (size + cell - index)) := by
    simp only [evaluate, negacyclicMul, Finset.sum_mul, Finset.mul_sum]
    rw [Finset.sum_comm]
    simp only [mul_assoc]
  rw [expand, evaluate, Finset.sum_mul]
  apply sum_congr rfl
  intro index index_mem
  rw [evaluate_shift wrap right (mem_range.mp index_mem).le, mul_assoc]

/-- The polynomial with the given coefficients. -/
noncomputable def polynomialOf (size : ℕ) (values : ℕ → Ring) : Ring[X] :=
  ∑ index ∈ range size, C (values index) * X ^ index

theorem polynomialOf_congr {size : ℕ} {left right : ℕ → Ring}
    (agree : ∀ index < size, left index = right index) :
    polynomialOf size left = polynomialOf size right := by
  apply sum_congr rfl
  intro index index_mem
  rw [agree index (mem_range.mp index_mem)]

theorem map_negacyclicMul {Target : Type u} [CommRing Target] (hom : Ring →+* Target) (size : ℕ)
    (left right : ℕ → Ring) (cell : ℕ) :
    hom (negacyclicMul size left right cell) =
      negacyclicMul size (fun index => hom (left index)) (fun index => hom (right index)) cell := by
  simp only [negacyclicMul, map_sum, map_mul, apply_ite hom, map_neg]

/-- Multiplication by a constant polynomial. -/
theorem negacyclicMul_constant {size : ℕ} (values : ℕ → Ring) (constant : Ring) {cell : ℕ}
    (cell_lt : cell < size) :
    negacyclicMul size values (fun index => if index = 0 then constant else 0) cell =
      values cell * constant := by
  rw [negacyclicMul, sum_eq_single_of_mem cell (mem_range.mpr cell_lt)]
  · simp
  · intro index index_mem distinct
    have index_lt := mem_range.mp index_mem
    by_cases before : index ≤ cell
    · rw [if_pos before, if_neg (by omega), mul_zero]
    · rw [if_neg before, if_neg (by omega), neg_zero, mul_zero]

theorem abs_negacyclicMul_le {size : ℕ} {left right : ℕ → ℤ} {leftBound rightBound : ℤ}
    (left_le : ∀ index < size, |left index| ≤ leftBound)
    (right_le : ∀ index < size, |right index| ≤ rightBound) {cell : ℕ} (cell_lt : cell < size) :
    |negacyclicMul size left right cell| ≤ size * (leftBound * rightBound) := by
  have term_le : ∀ index ∈ range size, |left index *
      if index ≤ cell then right (cell - index) else -right (size + cell - index)| ≤
        leftBound * rightBound := by
    intro index index_mem
    have index_lt := mem_range.mp index_mem
    have leftBound_nonneg : 0 ≤ leftBound := (abs_nonneg _).trans (left_le index index_lt)
    rw [abs_mul]
    apply mul_le_mul (left_le index index_lt) _ (abs_nonneg _) leftBound_nonneg
    by_cases before : index ≤ cell
    · rw [if_pos before]
      exact right_le _ (by omega)
    · rw [if_neg before, abs_neg]
      exact right_le _ (by omega)
  calc |negacyclicMul size left right cell|
      ≤ ∑ _index ∈ range size, leftBound * rightBound :=
        (abs_sum_le_sum_abs _ _).trans (sum_le_sum term_le)
    _ = size * (leftBound * rightBound) := by
        rw [sum_const, card_range, nsmul_eq_mul]

/-- `negacyclicMul` gives the product of two polynomials modulo `X ^ size + 1`. -/
theorem dvd_sub_negacyclicMul (size : ℕ) (left right : ℕ → Ring) :
    (X ^ size + 1 : Ring[X]) ∣ polynomialOf size left * polynomialOf size right -
      polynomialOf size (negacyclicMul size left right) := by
  let residue := AdjoinRoot.mk (X ^ size + 1 : Ring[X])
  have wrap : residue X ^ size = -1 := by
    have vanishes : residue (X ^ size + 1) = 0 := AdjoinRoot.mk_self
    rw [map_add, map_pow, map_one] at vanishes
    exact eq_neg_of_add_eq_zero_left vanishes
  have evaluates : ∀ values : ℕ → Ring, residue (polynomialOf size values) =
      evaluate (residue X) size (fun index => residue (C (values index))) := by
    intro values
    simp only [polynomialOf, evaluate, map_sum, map_mul, map_pow]
  have reduces : ∀ cell, residue (C (negacyclicMul size left right cell)) =
      negacyclicMul size (fun index => residue (C (left index)))
        (fun index => residue (C (right index))) cell :=
    map_negacyclicMul (residue.comp C) size left right
  rw [← AdjoinRoot.mk_eq_zero, map_sub, map_mul]
  change residue _ * residue _ - residue _ = 0
  simp only [evaluates, reduces]
  rw [evaluate_negacyclicMul wrap, sub_self]

variable {phi : Ring} {levels : ℕ}

theorem sq_pow_halfway (halfway : phi ^ 2 ^ levels = -1) :
    0 < levels → (phi ^ 2) ^ 2 ^ (levels - 1) = -1 := by
  intro levels_pos
  rw [← pow_mul, ← pow_succ', Nat.sub_add_cancel levels_pos, halfway]

/-- Pointwise products of transforms are transforms of negacyclic products. -/
theorem negacyclicTransform_negacyclicMul (halfway : phi ^ 2 ^ levels = -1)
    (left right : ℕ → Ring) (cell : ℕ) :
    negacyclicTransform phi levels (negacyclicMul (2 ^ levels) left right) cell =
      negacyclicTransform phi levels left cell * negacyclicTransform phi levels right cell := by
  have wrap : (phi ^ (2 * bitReverse levels cell + 1)) ^ 2 ^ levels = -1 := by
    rw [← pow_mul, mul_comm, pow_mul, halfway, pow_succ, pow_mul, neg_one_sq, one_pow, one_mul]
  simp only [negacyclicTransform_eq_evaluate]
  exact evaluate_negacyclicMul wrap left right

/--
The inverse: undo the bit reversal, transform at the inverse root, then undo the
twist and the factor introduced by transforming twice.
-/
theorem inverse_negacyclicTransform {inverse inverseSize : Ring}
    (halfway : phi ^ 2 ^ levels = -1) (inverse_mul : phi * inverse = 1)
    (inverseSize_mul : ((2 ^ levels : ℕ) : Ring) * inverseSize = 1) (values : ℕ → Ring) {cell : ℕ}
    (cell_lt : cell < 2 ^ levels) :
    dft (inverse ^ 2) (2 ^ levels)
        (fun frequency => negacyclicTransform phi levels values (bitReverse levels frequency)) cell *
      (inverseSize * inverse ^ cell) = values cell := by
  have squares : phi ^ 2 * inverse ^ 2 = 1 := by rw [← mul_pow, inverse_mul, one_pow]
  have untwist : phi ^ cell * inverse ^ cell = 1 := by rw [← mul_pow, inverse_mul, one_pow]
  have reordered : ∀ frequency < 2 ^ levels,
      negacyclicTransform phi levels values (bitReverse levels frequency) =
        dft (phi ^ 2) (2 ^ levels) (fun index => values index * phi ^ index) frequency := by
    intro frequency frequency_lt
    rw [negacyclicTransform, bitReverse_bitReverse frequency_lt]
  rw [dft_congr reordered, dft_dft_inverse (sq_pow_halfway halfway) squares _ cell_lt]
  linear_combination
    values cell * phi ^ cell * inverse ^ cell * inverseSize_mul + values cell * untwist

/-- Every array is the transform of what the inverse makes of it. -/
theorem negacyclicTransform_inverse {inverse inverseSize : Ring}
    (halfway : phi ^ 2 ^ levels = -1) (inverse_mul : phi * inverse = 1)
    (inverseSize_mul : ((2 ^ levels : ℕ) : Ring) * inverseSize = 1) (values : ℕ → Ring) {cell : ℕ}
    (cell_lt : cell < 2 ^ levels) :
    negacyclicTransform phi levels (fun index =>
        dft (inverse ^ 2) (2 ^ levels) (fun frequency => values (bitReverse levels frequency))
          index * (inverseSize * inverse ^ index)) cell = values cell := by
  have squares : inverse ^ 2 * phi ^ 2 = 1 := by rw [← mul_pow, mul_comm, inverse_mul, one_pow]
  have inverseHalfway : inverse ^ 2 ^ levels = -1 := by
    have product : phi ^ 2 ^ levels * inverse ^ 2 ^ levels = 1 := by
      rw [← mul_pow, inverse_mul, one_pow]
    rw [halfway] at product
    linear_combination -product
  have untwisted : ∀ index < 2 ^ levels,
      dft (inverse ^ 2) (2 ^ levels) (fun frequency => values (bitReverse levels frequency)) index *
          (inverseSize * inverse ^ index) * phi ^ index =
        inverseSize * dft (inverse ^ 2) (2 ^ levels)
          (fun frequency => values (bitReverse levels frequency)) index := by
    intro index _
    have twist : inverse ^ index * phi ^ index = 1 := by
      rw [← mul_pow, mul_comm, inverse_mul, one_pow]
    linear_combination dft (inverse ^ 2) (2 ^ levels)
      (fun frequency => values (bitReverse levels frequency)) index * inverseSize * twist
  have scaled : ∀ frequency, dft (phi ^ 2) (2 ^ levels) (fun index => inverseSize *
      dft (inverse ^ 2) (2 ^ levels) (fun frequency => values (bitReverse levels frequency)) index)
        frequency = inverseSize * dft (phi ^ 2) (2 ^ levels) (dft (inverse ^ 2) (2 ^ levels)
          fun frequency => values (bitReverse levels frequency)) frequency := by
    intro frequency
    rw [dft, dft, Finset.mul_sum]
    exact sum_congr rfl fun index _ => mul_assoc _ _ _
  rw [negacyclicTransform, dft_congr untwisted, scaled,
    dft_dft_inverse (sq_pow_halfway inverseHalfway) squares _ (bitReverse_lt _ _),
    bitReverse_bitReverse cell_lt]
  linear_combination values cell * inverseSize_mul

end Negacyclic

end Xpir
