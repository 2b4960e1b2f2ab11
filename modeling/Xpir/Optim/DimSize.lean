import Mathlib.Algebra.BigOperators.Group.Finset.Basic
import Mathlib.Algebra.Order.BigOperators.Ring.Finset
import Mathlib.Analysis.SpecialFunctions.Pow.NthRootLemmas
import Xpir.Foundations.Loop
import Xpir.Foundations.Rounding

/-!
# Dimensions of the database

`getDimSize` arranges the elements that are left after the aggregation in a hypercube. All
dimensions start with the root of the number of elements. If that is not exact, they are
incremented one after the other, until the product of the dimensions is large enough.

The product is computed in 32 bits and may wrap around. This never stops the loop too
early (`getDimSize_evenShape`), as a product that wraps around is larger than the number of
elements, but it may stop too late.
-/

namespace Xpir

open Finset

namespace PIROptimizer

/-- The variables of the loop that increments the factors. -/
structure DimState where
  prod : ℕ
  j : ℕ
  factors : ℕ → ℕ

/-- The product of the factors, an `unsigned int`. -/
def product (d : ℕ) (factors : ℕ → ℕ) : ℕ := forLoop d (fun i prod => prod * factors i % 2 ^ 32) 1

/-- The number of elements after the aggregation, computed with `double`. -/
def newN (n alpha : ℕ) : ℕ := ⌈toDouble (toDouble n / toDouble alpha)⌉₊

def incrementStep (d : ℕ) (state : DimState) : DimState :=
  let factors := Function.update state.factors state.j ((state.factors state.j + 1) % 2 ^ 32)
  { prod := product d factors
    j := state.j + 1
    factors := factors }

/-- The root of the number of elements, and the test whether it is one, are exact. -/
def getDimSize (fuel n alpha d : ℕ) : Option (ℕ → ℕ) :=
  let root := Nat.nthRoot d (newN n alpha)
  if root ^ d ≠ newN n alpha then
    (whileLoop (fun state => state.prod < newN n alpha && state.j < d)
      (fun state => some (incrementStep d state)) fuel
      { prod := 1, j := 0, factors := fun _ => root }).map DimState.factors
  else some fun _ => root

/-- What the dimensions are to be like. -/
structure EvenShape (n alpha d : ℕ) (dn : ℕ → ℕ) : Prop where
  covers : n ⌈/⌉ alpha ≤ ∏ i ∈ range d, dn i
  decreasing : ∀ i j, i ≤ j → j < d → dn j ≤ dn i
  positive : ∀ i < d, 1 ≤ dn i
  even : dn 0 ≤ dn (d - 1) + 1
  /-- Without its last increment, the shape is too small. -/
  minimal : dn 0 ^ d < 2 ^ 32 → ∀ last < d, dn last = Nat.nthRoot d (n ⌈/⌉ alpha) + 1 →
    (∀ i < d, last < i → dn i = Nat.nthRoot d (n ⌈/⌉ alpha)) →
      ∏ i ∈ range d, Function.update dn last (dn last - 1) i < n ⌈/⌉ alpha

/-- The first factors are incremented. -/
def raised (root count i : ℕ) : ℕ := if i < count then root + 1 else root

section Factors

variable {root : ℕ}

theorem raised_update (count : ℕ) :
    Function.update (raised root count) count (root + 1) = raised root (count + 1) := by
  funext i
  rcases lt_trichotomy i count with before | rfl | after
  · rw [Function.update_of_ne before.ne, raised, raised, if_pos before, if_pos (by omega)]
  · rw [Function.update_self, raised, if_pos (Nat.lt_succ_self i)]
  · rw [Function.update_of_ne after.ne', raised, raised, if_neg (by omega), if_neg (by omega)]

theorem update_raised (count : ℕ) :
    Function.update (raised root (count + 1)) count root = raised root count := by
  rw [← raised_update, Function.update_idem, Function.update_eq_self_iff, raised,
    if_neg (Nat.lt_irrefl _)]

theorem prod_raised_zero (d : ℕ) : ∏ i ∈ range d, raised root 0 i = root ^ d := by
  simp [raised]

theorem prod_raised_all (d : ℕ) : ∏ i ∈ range d, raised root d i = (root + 1) ^ d := by
  have all : ∀ i ∈ range d, raised root d i = root + 1 := fun i i_mem =>
    if_pos (mem_range.mp i_mem)
  rw [prod_congr rfl all, prod_const, card_range]

theorem prod_raised_le (count d : ℕ) : ∏ i ∈ range d, raised root count i ≤ (root + 1) ^ d := by
  rw [← prod_raised_all]
  apply prod_le_prod' fun i i_mem => ?_
  rw [raised, raised, if_pos (mem_range.mp i_mem)]
  split <;> omega

theorem product_eq (d : ℕ) (factors : ℕ → ℕ) :
    product d factors = (∏ i ∈ range d, factors i) % 2 ^ 32 := by
  induction d with
  | zero => rfl
  | succ d ih =>
      have step : product (d + 1) factors = product d factors * factors d % 2 ^ 32 := rfl
      rw [step, ih, prod_range_succ, Nat.mod_mul_mod]

end Factors

section Loop

variable {n alpha d : ℕ}

/-- Both numbers are exact as `double`, and the rounding of their quotient crosses no integer. -/
theorem newN_eq (n_lt : n < 2 ^ 32) (alpha_lt : alpha < 2 ^ 32) (alpha_pos : 0 < alpha) :
    newN n alpha = n ⌈/⌉ alpha :=
  natCeil_roundTo_quotient (n_lt.trans (by decide)) (alpha_lt.trans (by decide)) alpha_pos

/-- The state of the loop after some increments, none of which has been found to be enough. -/
structure Raising (d elements root : ℕ) (state : DimState) : Prop where
  j_le : state.j ≤ d
  factors : state.factors = raised root state.j
  prod : state.prod = if state.j = 0 then 1 else product d (raised root state.j)
  insufficient : ∀ count < state.j, product d (raised root count) < elements

theorem Raising.step {elements root : ℕ} {state : DimState} (root_lt : root + 1 < 2 ^ 32)
    (root_pow_lt : root ^ d < elements) (elements_lt : elements < 2 ^ 32)
    (holds : Raising d elements root state) (short : state.prod < elements) (inside : state.j < d) :
    Raising d elements root (incrementStep d state) := by
  have factors_eq : (incrementStep d state).factors = raised root (state.j + 1) := by
    have current : raised root state.j state.j = root := if_neg (Nat.lt_irrefl _)
    simp only [incrementStep, holds.factors, current, Nat.mod_eq_of_lt root_lt]
    exact raised_update state.j
  have prod_eq : (incrementStep d state).prod = product d (raised root (state.j + 1)) := by
    rw [← factors_eq]
    rfl
  refine ⟨inside, factors_eq, ?_, ?_⟩
  · rw [prod_eq]
    exact (if_neg (Nat.succ_ne_zero state.j)).symm
  · intro count count_lt
    rcases Nat.lt_succ_iff_lt_or_eq.mp count_lt with before | rfl
    · exact holds.insufficient count before
    · by_cases first : state.j = 0
      · rw [first, product_eq, prod_raised_zero, Nat.mod_eq_of_lt (root_pow_lt.trans elements_lt)]
        exact root_pow_lt
      · rwa [holds.prod, if_neg first] at short

/-- The loop ends, with at least one increment and enough elements. -/
theorem exists_raised {elements root fuel : ℕ} (root_lt : root + 1 < 2 ^ 32)
    (root_pow_lt : root ^ d < elements) (lt_succ_pow : elements < (root + 1) ^ d)
    (elements_lt : elements < 2 ^ 32) (two_le : 2 ≤ elements) (d_pos : 0 < d) (enough : d < fuel) :
    ∃ final count, whileLoop (fun state => state.prod < elements && state.j < d)
        (fun state => some (incrementStep d state)) fuel
        { prod := 1, j := 0, factors := fun _ => root } = some final ∧
      final.factors = raised root (count + 1) ∧ count < d ∧
      elements ≤ ∏ i ∈ range d, raised root (count + 1) i ∧
      product d (raised root count) < elements := by
  have initial : Raising d elements root { prod := 1, j := 0, factors := fun _ => root } :=
    ⟨Nat.zero_le _, funext fun i => (if_neg (Nat.not_lt_zero i)).symm, rfl,
      fun count count_lt => absurd count_lt (Nat.not_lt_zero count)⟩
  rcases whileLoop_total (fun state : DimState => state.prod < elements && state.j < d)
    (fun state => some (incrementStep d state)) (Raising d elements root) (fun state => d - state.j)
    (by
      intro state holds continues
      rw [Bool.and_eq_true, decide_eq_true_eq, decide_eq_true_eq] at continues
      refine ⟨_, rfl, holds.step root_lt root_pow_lt elements_lt continues.1 continues.2, ?_⟩
      have advances : (incrementStep d state).j = state.j + 1 := rfl
      omega)
    fuel _ initial (by simpa using enough) with ⟨final, runs, holds, stops⟩
  rw [Bool.and_eq_false_iff, decide_eq_false_iff_not, decide_eq_false_iff_not] at stops
  have some_increment : final.j ≠ 0 := by
    intro none
    have prod_eq := holds.prod
    rw [if_pos none] at prod_eq
    omega
  obtain ⟨count, count_eq⟩ : ∃ count, final.j = count + 1 :=
    Nat.exists_eq_succ_of_ne_zero some_increment
  have j_le := holds.j_le
  refine ⟨final, count, runs, by rw [holds.factors, count_eq], by omega, ?_,
    holds.insufficient count (by omega)⟩
  have prod_eq := holds.prod
  rw [if_neg some_increment, count_eq, product_eq] at prod_eq
  rcases stops with large | all
  · -- a product that has wrapped around is larger than what is left of it
    have remainder_le := Nat.mod_le (∏ i ∈ range d, raised root (count + 1) i) (2 ^ 32)
    omega
  · have all_raised : count + 1 = d := by omega
    rw [all_raised, prod_raised_all]
    exact lt_succ_pow.le

end Loop

section Shape

variable {n alpha d : ℕ}

theorem evenShape_root (d_pos : 0 < d) (elements_pos : 0 < n ⌈/⌉ alpha)
    (exact : Nat.nthRoot d (n ⌈/⌉ alpha) ^ d = n ⌈/⌉ alpha) :
    EvenShape n alpha d fun _ => Nat.nthRoot d (n ⌈/⌉ alpha) where
  covers := by rw [prod_const, card_range, exact]
  decreasing _ _ _ _ := le_rfl
  positive _ _ := Nat.pos_of_ne_zero fun zero => by
    rw [zero, zero_pow d_pos.ne'] at exact
    omega
  even := Nat.le_succ _
  minimal _ _ _ raised_eq := absurd raised_eq (by omega)

theorem evenShape_raised {count : ℕ} (root_pos : 0 < Nat.nthRoot d (n ⌈/⌉ alpha))
    (count_lt : count < d)
    (covers : n ⌈/⌉ alpha ≤ ∏ i ∈ range d, raised (Nat.nthRoot d (n ⌈/⌉ alpha)) (count + 1) i)
    (short : product d (raised (Nat.nthRoot d (n ⌈/⌉ alpha)) count) < n ⌈/⌉ alpha) :
    EvenShape n alpha d (raised (Nat.nthRoot d (n ⌈/⌉ alpha)) (count + 1)) where
  covers := covers
  decreasing i j i_le _ := by
    simp only [raised]
    split_ifs <;> omega
  positive i _ := by
    rw [raised]
    split <;> omega
  even := by
    simp only [raised]
    split_ifs <;> omega
  minimal := by
    intro fits last last_lt last_eq rest
    -- the last factor that is larger than the root is the one incremented last
    have last_is : last = count := by
      rw [raised] at last_eq
      split at last_eq
      next inside =>
        by_contra other
        have later := rest count count_lt (by omega)
        rw [raised, if_pos (Nat.lt_succ_self count)] at later
        omega
      next => omega
    subst last_is
    have first_eq : raised (Nat.nthRoot d (n ⌈/⌉ alpha)) (last + 1) 0 =
        Nat.nthRoot d (n ⌈/⌉ alpha) + 1 := if_pos (Nat.succ_pos last)
    rw [first_eq] at fits
    rw [last_eq, Nat.add_sub_cancel, update_raised]
    rwa [product_eq, Nat.mod_eq_of_lt ((prod_raised_le last d).trans_lt fits)] at short

/-- The dimensions cover the elements with the most even shape, the largest dimension first. -/
theorem getDimSize_evenShape (n_pos : 0 < n) (n_lt : n < 2 ^ 32) (alpha_pos : 0 < alpha)
    (alpha_lt : alpha < 2 ^ 32) (d_pos : 0 < d) :
    ∃ fuel dn, getDimSize fuel n alpha d = some dn ∧ EvenShape n alpha d dn := by
  have elements_pos := ceilDiv_pos alpha_pos n_pos
  have elements_lt : n ⌈/⌉ alpha < 2 ^ 32 := by
    refine lt_of_le_of_lt ((ceilDiv_le_iff_le_mul alpha_pos).mpr ?_) n_lt
    exact Nat.le_mul_of_pos_left n alpha_pos
  have root_pow_le := Nat.pow_nthRoot_le (a := n ⌈/⌉ alpha) (Or.inl d_pos.ne')
  have lt_succ_pow := Nat.lt_pow_nthRoot_add_one d_pos.ne' (n ⌈/⌉ alpha)
  have root_pos : 1 ≤ Nat.nthRoot d (n ⌈/⌉ alpha) :=
    (Nat.le_nthRoot_iff d_pos.ne').mpr (by rwa [one_pow])
  refine ⟨d + 1, ?_⟩
  simp only [getDimSize, newN_eq n_lt alpha_lt alpha_pos]
  split
  next inexact =>
    have root_pow_lt := lt_of_le_of_ne root_pow_le inexact
    have root_le := Nat.le_self_pow d_pos.ne' (Nat.nthRoot d (n ⌈/⌉ alpha))
    have pow_pos : 0 < Nat.nthRoot d (n ⌈/⌉ alpha) ^ d := by positivity
    rcases exists_raised (by omega) root_pow_lt lt_succ_pow elements_lt (by omega) d_pos
      (Nat.lt_succ_self d) with ⟨final, count, runs, factors_eq, count_lt, covers, short⟩
    refine ⟨final.factors, by rw [runs, Option.map_some], ?_⟩
    rw [factors_eq]
    exact evenShape_raised root_pos count_lt covers short
  next exact =>
    exact ⟨_, rfl, evenShape_root d_pos elements_pos (not_not.mp exact)⟩

/-- Ten elements in two dimensions. -/
theorem getDimSize_evenShape_ten :
    ∃ fuel dn, getDimSize fuel 10 1 2 = some dn ∧ EvenShape 10 1 2 dn :=
  getDimSize_evenShape (by decide) (by decide) (by decide) (by decide) (by decide)

end Shape

end PIROptimizer

end Xpir
