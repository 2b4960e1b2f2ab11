import Xpir.Foundations.Loop
import Xpir.Foundations.Rounding
import Mathlib.Data.Nat.ModEq

/-!
# The search for an aggregation

The optimizer looks for the aggregation with the lowest cost. It halves an interval of
multipliers, with ten tests on each side of the middle to see where the costs go down, and
tests what is left one after the other. The values tested are multiples of the smallest
aggregation that fills a ciphertext.
-/

namespace Xpir

/-- What the optimizer cannot choose. -/
structure FixedVars where
  n : UInt64
  alphaMax : UInt32
  l : UInt64

/--
What the search sees of a cryptosystem: the number of bits that a ciphertext absorbs before
the search and after a test, and the costs of an aggregation.
-/
structure AlphaCosts where
  start : UInt32
  absorption : UInt32 → UInt32
  value : UInt32 → ℚ

/-- The absorption, the aggregations tested, and the best one of them. -/
structure AlphaSearch where
  absorption : UInt32
  tested : List UInt32
  optimum : Option (UInt32 × ℚ)

namespace PIROptimizer

def kalphaBound : UInt32 := 100

variable (fixedVars : FixedVars) (costs : AlphaCosts)

/-- Both conversions to `double` are made in the source. -/
def getMinAlpha (absorption : UInt32) : UInt32 :=
  let r := ⌈toDouble ((absorption.toNat : ℚ) / toDouble fixedVars.l.toNat)⌉₊
  let r := if fixedVars.n.toNat < r then fixedVars.n.toNat else r
  let ret := if r < 1 then 1 else UInt32.ofNat r
  if fixedVars.alphaMax = 0 then ret else min ret fixedVars.alphaMax

def getMaxAlpha : UInt32 :=
  if fixedVars.alphaMax = 0 ∨ fixedVars.n.toNat < fixedVars.alphaMax.toNat then
    fixedVars.n.toUInt32
  else fixedVars.alphaMax

/-- Zero stands for no aggregation. -/
def countedAlpha (alpha : UInt32) : UInt32 := if alpha = 0 then 1 else alpha

/-- The value of a test, and the search after it. -/
def computeOptimVars (alpha : UInt32) (search : AlphaSearch) : ℚ × AlphaSearch :=
  let alpha := countedAlpha alpha
  let value := costs.value alpha
  (value,
    { absorption := costs.absorption alpha
      tested := search.tested ++ [alpha]
      optimum := if ∀ best ∈ search.optimum, value < best.2 then some (alpha, value)
        else search.optimum })

/-- The variables of the loop of `findAlpha`; `broken` once it has been left early. -/
structure AlphaLoop where
  search : AlphaSearch
  currentAlpha : UInt32
  broken : Bool

def alphaStep (minimumReasonableAlpha : UInt32) (loop : AlphaLoop) : AlphaLoop :=
  let search := (computeOptimVars costs loop.currentAlpha loop.search).2
  if search.absorption = 0 then { loop with search := search, broken := true }
  else
    { search := search, currentAlpha := loop.currentAlpha + minimumReasonableAlpha
      broken := false }

def findAlpha (fuel : ℕ) (alphaMin alphaMax : UInt32) (search : AlphaSearch) :
    Option AlphaSearch :=
  let minimumReasonableAlpha := getMinAlpha fixedVars search.absorption
  (whileLoop (fun loop => !loop.broken && loop.currentAlpha ≤ alphaMax)
    (fun loop => some (alphaStep costs minimumReasonableAlpha loop)) fuel
    { search := search, currentAlpha := alphaMin, broken := false }).map AlphaLoop.search

/-- The lowest of eleven values, which are tested one after the other. -/
def lowest (probe : ℕ → UInt32) (search : AlphaSearch) : ℚ × AlphaSearch :=
  forLoop 10
    (fun i (v, search) =>
      let (vtmp, search) := computeOptimVars costs (probe (i + 1)) search
      (if vtmp ≤ v then vtmp else v, search))
    (computeOptimVars costs (probe 0) search)

def goesRight (vright vleft : ℚ) : Bool := vright < toDouble (vleft - toDouble (1 / 10 ^ 7))

/-- The multipliers that are tested on the right of one. -/
def rightProbe (alphaMul sup : UInt32) (i : ℕ) : UInt32 :=
  let deltaright := (sup - 1 - alphaMul) / 10
  alphaMul + 1 + UInt32.ofNat i * deltaright

def leftProbe (alphaMul inf : UInt32) (i : ℕ) : UInt32 :=
  let deltaleft := (alphaMul - inf - 1) / 10
  alphaMul - 1 - UInt32.ofNat i * deltaleft

/-- Whether the costs go down to the right of a multiplier. -/
def slop (alphaMul inf sup : UInt32) (search : AlphaSearch) : Bool × AlphaSearch :=
  let minalpha := getMinAlpha fixedVars search.absorption
  let (vright, search) := lowest costs (fun i => rightProbe alphaMul sup i * minalpha) search
  let (vleft, search) := lowest costs (fun i => leftProbe alphaMul inf i * minalpha) search
  (goesRight vright vleft, search)

/-- The largest value that the last part of the search may test. -/
def maxAlphaBound (sup minAlpha : UInt32) : UInt32 :=
  if fixedVars.n.toNat < (sup * minAlpha).toNat then fixedVars.n.toUInt32
  else min fixedVars.alphaMax (max kalphaBound (sup * minAlpha))

def findAlphaDicho (fuel : ℕ) :
    ℕ → UInt32 → UInt32 → AlphaSearch → Option AlphaSearch
  | 0, _, _, _ => none
  | depth + 1, inf, sup, search =>
      if sup - inf ≤ 100 then
        let minAlpha := getMinAlpha fixedVars search.absorption
        findAlpha fixedVars costs fuel (inf * minAlpha) (maxAlphaBound fixedVars sup minAlpha)
          search
      else
        let alphaBound := inf + (sup - inf) / 2
        let (right, search) := slop fixedVars costs alphaBound inf sup search
        if right then findAlphaDicho fuel depth alphaBound sup search
        else findAlphaDicho fuel depth inf alphaBound search

/-- The search before its first test. -/
def beforeSearch : AlphaSearch where
  absorption := costs.start
  tested := []
  optimum := none

/-- An aggregation that is allowed. -/
def Allowed (alpha : UInt32) : Prop := 1 ≤ alpha.toNat ∧ alpha.toNat ≤ (getMaxAlpha fixedVars).toNat

/-- No ciphertext absorbs more than `bits`. -/
structure AbsorbsAtMost (bits : UInt32) : Prop where
  start : costs.start.toNat ≤ bits.toNat
  absorption : ∀ alpha, (costs.absorption alpha).toNat ≤ bits.toNat

/-- The search ends, and has tested only aggregations that are allowed. -/
def SearchesWithinBounds (bits : UInt32) : Prop :=
  ∀ costs : AlphaCosts, AbsorbsAtMost costs bits → ∃ fuel depth final,
    findAlphaDicho fixedVars costs fuel depth 0 (getMaxAlpha fixedVars) (beforeSearch costs) =
      some final ∧
    (∀ alpha ∈ final.tested, Allowed fixedVars alpha) ∧
    ∀ best ∈ final.optimum, Allowed fixedVars best.1

section MinAlpha

variable {fixedVars}

/-- The rounding of the size of an element and of the quotient crosses no integer. -/
theorem natCeil_div_toDouble (absorption : UInt32) {l : UInt64} (l_pos : 1 ≤ l.toNat) :
    ⌈toDouble ((absorption.toNat : ℚ) / toDouble l.toNat)⌉₊ = absorption.toNat ⌈/⌉ l.toNat := by
  have absorption_lt := absorption.toNat_lt
  by_cases exact : l.toNat < 2 ^ 53
  · rw [toDouble_natCast exact]
    exact natCeil_roundTo_div (by omega) l_pos
  · have divisor_ge : ((2 ^ 52 : ℕ) : ℚ) ≤ toDouble l.toNat :=
      natCast_le_roundTo (by decide) (by decide) (by exact_mod_cast l_pos)
        (by exact_mod_cast (by omega : 2 ^ 52 ≤ l.toNat))
    have divisor_pos : 0 < toDouble l.toNat := lt_of_lt_of_le (by positivity) divisor_ge
    rcases Nat.eq_zero_or_pos absorption.toNat with zero | positive
    · have exact_zero := toDouble_natCast (by decide : 0 < 2 ^ 53)
      rw [Nat.cast_zero] at exact_zero
      rw [zero, Nat.cast_zero, zero_div, exact_zero, Nat.ceil_zero, zero_ceilDiv]
    · have quotient_pos : 0 < (absorption.toNat : ℚ) / toDouble l.toNat :=
        div_pos (by exact_mod_cast positive) divisor_pos
      have quotient_le : (absorption.toNat : ℚ) / toDouble l.toNat ≤ (1 : ℕ) := by
        rw [Nat.cast_one, div_le_one divisor_pos]
        refine le_trans ?_ divisor_ge
        exact_mod_cast (by omega : absorption.toNat ≤ 2 ^ 52)
      have at_most : ⌈toDouble ((absorption.toNat : ℚ) / toDouble l.toNat)⌉₊ ≤ 1 := by
        rw [Nat.ceil_le]
        exact roundTo_le_natCast (by decide) quotient_pos.le quotient_le
      have at_least : 0 < ⌈toDouble ((absorption.toNat : ℚ) / toDouble l.toNat)⌉₊ := by
        rw [Nat.ceil_pos]
        exact (zpow_pos (by norm_num) _).trans_le (zpow_log_le_roundTo (by decide) quotient_pos)
      have one_le := ceilDiv_pos l_pos positive
      have le_one : absorption.toNat ⌈/⌉ l.toNat ≤ 1 := by
        rw [ceilDiv_le_iff_le_mul l_pos]
        omega
      omega

theorem min_toNat (left right : UInt32) :
    (min left right).toNat = min left.toNat right.toNat := by
  change (if left ≤ right then left else right).toNat = _
  split
  next le => rw [min_eq_left (UInt32.le_iff_toNat_le.mp le)]
  next gt => rw [min_eq_right (not_le.mp (mt UInt32.le_iff_toNat_le.mpr gt)).le]

theorem max_toNat (left right : UInt32) :
    (max left right).toNat = max left.toNat right.toNat := by
  change (if left ≤ right then right else left).toNat = _
  split
  next le => rw [max_eq_right (UInt32.le_iff_toNat_le.mp le)]
  next gt => rw [max_eq_left (not_le.mp (mt UInt32.le_iff_toNat_le.mpr gt)).le]

theorem getMaxAlpha_toNat (n_lt : fixedVars.n.toNat < 2 ^ 32) :
    (getMaxAlpha fixedVars).toNat =
      if fixedVars.alphaMax = 0 ∨ fixedVars.n.toNat < fixedVars.alphaMax.toNat then
        fixedVars.n.toNat
      else fixedVars.alphaMax.toNat := by
  rw [getMaxAlpha]
  split
  · rw [UInt64.toNat_toUInt32, Nat.mod_eq_of_lt n_lt]
  · rfl

theorem getMinAlpha_toNat (n_pos : 1 ≤ fixedVars.n.toNat) (n_lt : fixedVars.n.toNat < 2 ^ 32)
    (l_pos : 1 ≤ fixedVars.l.toNat) (absorption : UInt32) :
    (getMinAlpha fixedVars absorption).toNat =
      min (max 1 (absorption.toNat ⌈/⌉ fixedVars.l.toNat)) (getMaxAlpha fixedVars).toNat := by
  rw [getMaxAlpha_toNat n_lt, getMinAlpha, natCeil_div_toDouble absorption l_pos]
  generalize absorption.toNat ⌈/⌉ fixedVars.l.toNat = r
  have bounded_lt : (if fixedVars.n.toNat < r then fixedVars.n.toNat else r) < 2 ^ 32 := by
    split <;> omega
  generalize bounded_eq : (if fixedVars.n.toNat < r then fixedVars.n.toNat else r) = bounded
    at bounded_lt
  have ret_eq : (if bounded < 1 then 1 else UInt32.ofNat bounded).toNat = max 1 bounded := by
    split
    next small => rw [max_eq_left (by omega)]; rfl
    next large =>
      rw [UInt32.toNat_ofNat', Nat.mod_eq_of_lt bounded_lt, max_eq_right (by omega)]
  have bounded_is : bounded = min r fixedVars.n.toNat := by
    rw [← bounded_eq]
    split <;> omega
  by_cases unlimited : fixedVars.alphaMax = 0
  · simp only [unlimited, if_true, true_or, ret_eq]
    omega
  · simp only [unlimited, if_false, false_or, min_toNat, ret_eq]
    have alphaMax_pos : fixedVars.alphaMax.toNat ≠ 0 :=
      fun zero => unlimited (UInt32.toNat_inj.mp zero)
    split <;> omega

end MinAlpha

section Rules

variable {fixedVars costs}

/-- What every test keeps that is made with an aggregation of a certain kind. -/
def KeptByTests (costs : AlphaCosts) (kind : UInt32 → Prop) (holds : AlphaSearch → Prop) : Prop :=
  ∀ alpha search, kind alpha → holds search → holds (computeOptimVars costs alpha search).2

variable {kind : UInt32 → Prop} {holds : AlphaSearch → Prop}

theorem KeptByTests.lowest (kept : KeptByTests costs kind holds) {probe : ℕ → UInt32}
    (probes : ∀ i ≤ 10, kind (probe i)) {search : AlphaSearch} (initially : holds search) :
    holds (lowest costs probe search).2 := by
  refine forLoop_induction 10 _ _ (fun _ (state : ℚ × AlphaSearch) => holds state.2)
    (kept _ _ (probes 0 (Nat.zero_le 10)) initially) ?_
  intro i state i_lt before
  exact kept _ _ (probes (i + 1) i_lt) before

theorem slop_snd (alphaMul inf sup : UInt32) (search : AlphaSearch) :
    (slop fixedVars costs alphaMul inf sup search).2 =
      (PIROptimizer.lowest costs
        (fun i => leftProbe alphaMul inf i * getMinAlpha fixedVars search.absorption)
        (PIROptimizer.lowest costs
          (fun i => rightProbe alphaMul sup i * getMinAlpha fixedVars search.absorption)
          search).2).2 := by
  rw [slop]

theorem KeptByTests.slop (kept : KeptByTests costs kind holds)
    {alphaMul inf sup : UInt32} {search : AlphaSearch}
    (right : ∀ i ≤ 10, kind (rightProbe alphaMul sup i * getMinAlpha fixedVars search.absorption))
    (left : ∀ i ≤ 10, kind (leftProbe alphaMul inf i * getMinAlpha fixedVars search.absorption))
    (initially : holds search) : holds (slop fixedVars costs alphaMul inf sup search).2 := by
  rw [slop_snd]
  exact kept.lowest left (kept.lowest right initially)

theorem KeptByTests.findAlpha (kept : KeptByTests costs (fun _ => True) holds) {fuel : ℕ}
    {alphaMin alphaMax : UInt32} {search final : AlphaSearch} (initially : holds search)
    (returns : findAlpha fixedVars costs fuel alphaMin alphaMax search = some final) :
    holds final := by
  rcases Option.map_eq_some_iff.mp returns with ⟨loop, runs, rfl⟩
  refine whileLoop_invariant (fun loop => holds loop.search) ?_ initially runs
  rintro state next before - steps
  rw [← Option.some.inj steps, alphaStep]
  split <;> exact kept _ _ trivial before

theorem KeptByTests.findAlphaDicho (kept : KeptByTests costs (fun _ => True) holds)
    {fuel depth : ℕ} {inf sup : UInt32} {search final : AlphaSearch} (initially : holds search)
    (returns : findAlphaDicho fixedVars costs fuel depth inf sup search = some final) :
    holds final := by
  induction depth generalizing inf sup search with
  | zero => exact absurd returns (by simp [PIROptimizer.findAlphaDicho])
  | succ depth ih =>
      rw [PIROptimizer.findAlphaDicho] at returns
      split at returns
      · exact kept.findAlpha initially returns
      · have slopes : holds
            (PIROptimizer.slop fixedVars costs (inf + (sup - inf) / 2) inf sup search).2 :=
          kept.slop (fun _ _ => trivial) (fun _ _ => trivial) initially
        simp only at returns
        split at returns
        · exact ih slopes returns
        · exact ih slopes returns

/-- The tests that have been made stay. -/
theorem keptByTests_mem (costs : AlphaCosts) (alpha : UInt32) :
    KeptByTests costs (fun _ => True) (fun search => alpha ∈ search.tested) :=
  fun _ _ _ mem => List.mem_append_left _ mem

theorem mem_tested (alpha : UInt32) (search : AlphaSearch) :
    countedAlpha alpha ∈ (computeOptimVars costs alpha search).2.tested :=
  List.mem_append_right _ (List.mem_singleton.mpr rfl)

/-- The lowest value is that of a test, and no test has a lower one. -/
theorem lowest_spec (costs : AlphaCosts) (probe : ℕ → UInt32) (search : AlphaSearch) :
    (∀ i ≤ 10, (PIROptimizer.lowest costs probe search).1 ≤
        costs.value (countedAlpha (probe i)) ∧
      countedAlpha (probe i) ∈ (PIROptimizer.lowest costs probe search).2.tested) ∧
    ∃ i ≤ 10, (PIROptimizer.lowest costs probe search).1 =
      costs.value (countedAlpha (probe i)) := by
  refine forLoop_induction 10 _ _ (fun j (state : ℚ × AlphaSearch) =>
    (∀ i ≤ j, state.1 ≤ costs.value (countedAlpha (probe i)) ∧
      countedAlpha (probe i) ∈ state.2.tested) ∧
    ∃ i ≤ j, state.1 = costs.value (countedAlpha (probe i))) ?_ ?_
  · refine ⟨fun i i_le => ?_, 0, le_refl 0, rfl⟩
    rw [Nat.le_zero.mp i_le]
    exact ⟨le_refl _, mem_tested _ _⟩
  · rintro j ⟨v, tests⟩ j_lt ⟨all, i, i_le, v_eq⟩
    refine ⟨fun k k_le => ?_, ?_⟩
    · rcases Nat.of_le_succ k_le with earlier | rfl
      · refine ⟨le_trans ?_ (all k earlier).1, keptByTests_mem _ _ _ _ trivial (all k earlier).2⟩
        simp only
        split
        next le => exact le
        next => exact le_refl v
      · refine ⟨?_, mem_tested _ _⟩
        simp only
        split
        next => exact le_refl _
        next gt => exact (not_le.mp gt).le
    · simp only
      split
      next => exact ⟨j + 1, le_refl _, rfl⟩
      next => exact ⟨i, Nat.le_succ_of_le i_le, v_eq⟩

/-- The tolerance decides nothing between integers. -/
theorem goesRight_natCast {right left : ℕ} (left_lt : left < 2 ^ 33) :
    goesRight right left = true ↔ right < left := by
  have tolerance_pos : (0 : ℚ) < 1 / 10 ^ 7 := by norm_num
  have above : toDouble (1 / 10 ^ 7) * 2 ^ 53 ≤ 1 / 10 ^ 7 * (2 ^ 53 + 1) :=
    roundTo_mul_two_pow_le tolerance_pos.le
  have below : 0 ≤ toDouble (1 / 10 ^ 7) := roundTo_nonneg tolerance_pos.le
  rw [goesRight, decide_eq_true_eq]
  generalize toDouble (1 / 10 ^ 7) = tolerance at above below ⊢
  have left_cast : (left : ℚ) < 2 ^ 33 := by exact_mod_cast left_lt
  rcases Nat.lt_or_ge right left with lower | notLower
  · have lower_cast : (right : ℚ) + 1 ≤ left := by exact_mod_cast lower
    have right_nonneg : (0 : ℚ) ≤ right := Nat.cast_nonneg right
    have difference_nonneg : 0 ≤ (left : ℚ) - tolerance := by linarith
    have rounded : ((left : ℚ) - tolerance) * (2 ^ 53 - 1) ≤ toDouble (left - tolerance) * 2 ^ 53 :=
      le_roundTo_mul_two_pow difference_nonneg
    exact ⟨fun _ => lower, fun _ => by linarith⟩
  · have notLower_cast : (left : ℚ) ≤ right := by exact_mod_cast notLower
    have rounded : toDouble (left - tolerance) ≤ left := by
      rcases Nat.eq_zero_or_pos left with rfl | left_pos
      · rw [Nat.cast_zero]
        exact roundTo_nonpos (by linarith)
      · have left_cast_pos : (1 : ℚ) ≤ left := by exact_mod_cast left_pos
        exact roundTo_le_natCast (by omega) (by linarith) (by linarith)
    exact ⟨fun goes => absurd goes (not_lt.mpr (rounded.trans notLower_cast)), fun lower => by omega⟩

theorem slop_tested (costs : AlphaCosts) (alphaMul inf sup : UInt32) {search : AlphaSearch}
    {step : UInt32} (step_eq : getMinAlpha fixedVars search.absorption = step) {i : ℕ}
    (i_le : i ≤ 10) :
    countedAlpha (rightProbe alphaMul sup i * step) ∈
        (PIROptimizer.slop fixedVars costs alphaMul inf sup search).2.tested ∧
      countedAlpha (leftProbe alphaMul inf i * step) ∈
        (PIROptimizer.slop fixedVars costs alphaMul inf sup search).2.tested := by
  rw [slop_snd, step_eq]
  exact ⟨(keptByTests_mem costs _).lowest (fun _ _ => trivial)
      ((lowest_spec costs (fun i => rightProbe alphaMul sup i * step) search).1 i i_le).2,
    ((lowest_spec costs (fun i => leftProbe alphaMul inf i * step) _).1 i i_le).2⟩

/-- What the first slope of a wide interval tests has been tested at the end. -/
theorem tested_of_slop {fuel depth : ℕ} {inf sup : UInt32} {search final : AlphaSearch}
    (wide : ¬ sup - inf ≤ 100) {alpha : UInt32}
    (tested : alpha ∈ (PIROptimizer.slop fixedVars costs (inf + (sup - inf) / 2) inf sup
      search).2.tested)
    (returns : findAlphaDicho fixedVars costs fuel depth inf sup search = some final) :
    alpha ∈ final.tested := by
  cases depth with
  | zero => exact absurd returns (by simp [PIROptimizer.findAlphaDicho])
  | succ depth =>
      rw [PIROptimizer.findAlphaDicho, if_neg wide] at returns
      simp only at returns
      split at returns
      · exact (keptByTests_mem costs alpha).findAlphaDicho tested returns
      · exact (keptByTests_mem costs alpha).findAlphaDicho tested returns

theorem slop_fst (costs : AlphaCosts) (alphaMul inf sup : UInt32) (search : AlphaSearch) :
    (PIROptimizer.slop fixedVars costs alphaMul inf sup search).1 =
      goesRight
        (PIROptimizer.lowest costs
          (fun i => rightProbe alphaMul sup i * getMinAlpha fixedVars search.absorption) search).1
        (PIROptimizer.lowest costs
          (fun i => leftProbe alphaMul inf i * getMinAlpha fixedVars search.absorption)
          (PIROptimizer.lowest costs
            (fun i => rightProbe alphaMul sup i * getMinAlpha fixedVars search.absorption)
            search).2).1 := by
  rw [PIROptimizer.slop]

section Directions

variable (cost : UInt32 → ℕ) (value_eq : ∀ alpha, costs.value alpha = cost alpha)
  (cost_lt : ∀ alpha, cost alpha < 2 ^ 33) {alphaMul inf sup step : UInt32} {search : AlphaSearch}
  (step_eq : getMinAlpha fixedVars search.absorption = step) (bound : ℕ)

include value_eq cost_lt step_eq

theorem slop_right (right : ∃ i ≤ 10, cost (countedAlpha (rightProbe alphaMul sup i * step)) < bound)
    (left : ∀ i ≤ 10, bound ≤ cost (countedAlpha (leftProbe alphaMul inf i * step))) :
    (PIROptimizer.slop fixedVars costs alphaMul inf sup search).1 = true := by
  rw [slop_fst, step_eq]
  generalize (PIROptimizer.lowest costs (fun i => rightProbe alphaMul sup i * step) search).2 =
    between
  have right_spec := lowest_spec costs (fun i => rightProbe alphaMul sup i * step) search
  have left_spec := lowest_spec costs (fun i => leftProbe alphaMul inf i * step) between
  rcases right with ⟨k, k_le, lower⟩
  rcases right_spec with ⟨all, i, -, vright_eq⟩
  rcases left_spec with ⟨-, j, j_le, vleft_eq⟩
  have vright_le := (all k k_le).1
  rw [vright_eq, value_eq, value_eq] at vright_le
  rw [vright_eq, vleft_eq, value_eq, value_eq, goesRight_natCast (cost_lt _)]
  exact lt_of_lt_of_le (lt_of_le_of_lt (by exact_mod_cast vright_le) lower) (left j j_le)

theorem slop_left (right : ∀ i ≤ 10, bound ≤ cost (countedAlpha (rightProbe alphaMul sup i * step)))
    (left : ∃ i ≤ 10, cost (countedAlpha (leftProbe alphaMul inf i * step)) ≤ bound) :
    (PIROptimizer.slop fixedVars costs alphaMul inf sup search).1 = false := by
  rw [slop_fst, step_eq]
  generalize (PIROptimizer.lowest costs (fun i => rightProbe alphaMul sup i * step) search).2 =
    between
  have right_spec := lowest_spec costs (fun i => rightProbe alphaMul sup i * step) search
  have left_spec := lowest_spec costs (fun i => leftProbe alphaMul inf i * step) between
  rcases left with ⟨k, k_le, lower⟩
  rcases right_spec with ⟨-, i, i_le, vright_eq⟩
  rcases left_spec with ⟨all, j, -, vleft_eq⟩
  have vleft_le := (all k k_le).1
  rw [vleft_eq, value_eq, value_eq] at vleft_le
  rw [vright_eq, vleft_eq, value_eq, value_eq, Bool.eq_false_iff, Ne,
    goesRight_natCast (cost_lt _), not_lt]
  exact le_trans (by exact_mod_cast vleft_le) (lower.trans (right i i_le))

end Directions

theorem countedAlpha_toNat (alpha : UInt32) : (countedAlpha alpha).toNat = max 1 alpha.toNat := by
  rw [countedAlpha]
  split
  next zero => rw [zero]; rfl
  next nonzero =>
    have positive : alpha.toNat ≠ 0 := fun zero => nonzero (UInt32.toNat_inj.mp zero)
    omega

end Rules

section Bounds

variable {fixedVars costs} {bits : UInt32}

/-- A search that has tested only what is allowed. -/
structure Good (fixedVars : FixedVars) (bits : UInt32) (search : AlphaSearch) : Prop where
  absorption : search.absorption.toNat ≤ bits.toNat
  tested : ∀ alpha ∈ search.tested, Allowed fixedVars alpha
  optimum : ∀ best ∈ search.optimum, Allowed fixedVars best.1

theorem keptByTests_good (absorbs : AbsorbsAtMost costs bits)
    (positive : 1 ≤ (getMaxAlpha fixedVars).toNat) :
    KeptByTests costs (fun alpha => alpha.toNat ≤ (getMaxAlpha fixedVars).toNat)
      (Good fixedVars bits) := by
  intro alpha search inside good
  have allowed : Allowed fixedVars (countedAlpha alpha) := by
    rw [countedAlpha]
    split
    next => exact ⟨le_refl _, positive⟩
    next nonzero =>
      refine ⟨Nat.one_le_iff_ne_zero.mpr fun zero => nonzero (UInt32.toNat_inj.mp zero), inside⟩
  refine ⟨absorbs.absorption _, ?_, ?_⟩
  · intro tested mem
    rcases List.mem_append.mp mem with earlier | last
    · exact good.tested tested earlier
    · rwa [List.mem_singleton.mp last]
  · intro best mem
    simp only [computeOptimVars] at mem
    split at mem
    · rw [Option.mem_def, Option.some.injEq] at mem
      rwa [← mem]
    · exact good.optimum best mem

theorem good_beforeSearch (absorbs : AbsorbsAtMost costs bits) :
    Good fixedVars bits (beforeSearch costs) :=
  ⟨absorbs.start, fun _ mem => absurd mem List.not_mem_nil, fun _ mem => by simp [beforeSearch] at mem⟩

/-- A loop whose bound is not close to the largest number ends. -/
theorem findAlpha_good (absorbs : AbsorbsAtMost costs bits)
    (positive : 1 ≤ (getMaxAlpha fixedVars).toNat) {alphaMin bound : UInt32}
    {search : AlphaSearch} (good : Good fixedVars bits search)
    (step_pos : 1 ≤ (getMinAlpha fixedVars search.absorption).toNat)
    (fits : bound.toNat + (getMinAlpha fixedVars search.absorption).toNat < 2 ^ 32)
    (inside : ∀ k, alphaMin.toNat + k * (getMinAlpha fixedVars search.absorption).toNat ≤
        bound.toNat →
      alphaMin.toNat + k * (getMinAlpha fixedVars search.absorption).toNat ≤
        (getMaxAlpha fixedVars).toNat) :
    ∃ final, findAlpha fixedVars costs (2 ^ 32 + 1) alphaMin bound search = some final ∧
      Good fixedVars bits final := by
  generalize step_eq : getMinAlpha fixedVars search.absorption = step at step_pos fits inside
  have kept : ∀ loop : AlphaLoop,
      (Good fixedVars bits loop.search ∧
        ∃ k, loop.currentAlpha.toNat = alphaMin.toNat + k * step.toNat) →
      (!loop.broken && decide (loop.currentAlpha ≤ bound)) = true →
      ∃ next, some (alphaStep costs step loop) = some next ∧
        (Good fixedVars bits next.search ∧
          ∃ k, next.currentAlpha.toNat = alphaMin.toNat + k * step.toNat) ∧
        (if next.broken then 0 else 2 ^ 32 - next.currentAlpha.toNat) <
          if loop.broken then 0 else 2 ^ 32 - loop.currentAlpha.toNat := by
    rintro loop ⟨loop_good, k, current_eq⟩ continues
    simp only [Bool.and_eq_true, Bool.not_eq_true', decide_eq_true_eq] at continues
    have current_le := UInt32.le_iff_toNat_le.mp continues.2
    have current_inside : loop.currentAlpha.toNat ≤ (getMaxAlpha fixedVars).toNat := by
      rw [current_eq]
      exact inside k (by rwa [← current_eq])
    have tested_good :=
      keptByTests_good absorbs positive loop.currentAlpha loop.search current_inside loop_good
    refine ⟨_, rfl, ?_, ?_⟩
    · rw [alphaStep]
      split
      · exact ⟨tested_good, k, current_eq⟩
      · refine ⟨tested_good, k + 1, ?_⟩
        rw [UInt32.toNat_add, Nat.mod_eq_of_lt (by omega), current_eq, Nat.add_mul]
        omega
    · rw [alphaStep]
      split
      · simp only [if_true, continues.1, Bool.false_eq_true, if_false]
        omega
      · simp only [continues.1, Bool.false_eq_true, if_false, UInt32.toNat_add]
        rw [Nat.mod_eq_of_lt (by omega)]
        omega
  rcases whileLoop_total _ _ _ _ kept (2 ^ 32 + 1)
    { search := search, currentAlpha := alphaMin, broken := false } ⟨good, 0, by simp⟩
    (by simp only [Bool.false_eq_true, if_false]; omega) with ⟨loop, runs, ⟨final_good, _⟩, _⟩
  exact ⟨loop.search, by rw [findAlpha, step_eq, runs, Option.map_some], final_good⟩

/-- A loop is left after its first test if nothing is absorbed. -/
theorem findAlpha_zero (absorbs : AbsorbsAtMost costs 0)
    (positive : 1 ≤ (getMaxAlpha fixedVars).toNat) {alphaMin bound : UInt32}
    {search : AlphaSearch} (good : Good fixedVars 0 search)
    (inside : alphaMin.toNat ≤ (getMaxAlpha fixedVars).toNat) :
    ∃ final, findAlpha fixedVars costs (2 ^ 32 + 1) alphaMin bound search = some final ∧
      Good fixedVars 0 final := by
  have tested_good := keptByTests_good absorbs positive alphaMin search inside good
  have nothing : (computeOptimVars costs alphaMin search).2.absorption = 0 :=
    UInt32.toNat_inj.mp (Nat.le_zero.mp tested_good.absorption)
  have kept : ∀ loop : AlphaLoop,
      (Good fixedVars 0 loop.search ∧ (loop.broken = true ∨ loop.currentAlpha = alphaMin ∧
        loop.search = search)) →
      (!loop.broken && decide (loop.currentAlpha ≤ bound)) = true →
      ∃ next, some (alphaStep costs (getMinAlpha fixedVars search.absorption) loop) = some next ∧
        (Good fixedVars 0 next.search ∧ (next.broken = true ∨ next.currentAlpha = alphaMin ∧
          next.search = search)) ∧
        (if next.broken then 0 else 1) < if loop.broken then 0 else 1 := by
    rintro loop ⟨_, ended | ⟨current_eq, search_eq⟩⟩ continues
    · simp [ended] at continues
    · simp only [Bool.and_eq_true, Bool.not_eq_true'] at continues
      refine ⟨_, rfl, ?_, ?_⟩
      · rw [alphaStep, current_eq, search_eq, if_pos nothing]
        exact ⟨tested_good, Or.inl rfl⟩
      · rw [alphaStep, current_eq, search_eq, if_pos nothing]
        simp [continues.1]
  rcases whileLoop_total _ _ _ _ kept (2 ^ 32 + 1)
    { search := search, currentAlpha := alphaMin, broken := false } ⟨good, Or.inr ⟨rfl, rfl⟩⟩
    (by simp) with ⟨loop, runs, ⟨final_good, _⟩, _⟩
  exact ⟨loop.search, by rw [findAlpha, runs, Option.map_some], final_good⟩

theorem width_toNat {inf sup : UInt32} (inf_le : inf.toNat ≤ sup.toNat) :
    (sup - inf).toNat = sup.toNat - inf.toNat :=
  UInt32.toNat_sub_of_le _ _ (UInt32.le_iff_toNat_le.mpr inf_le)

/-- An interval that is halved is wide, and its middle is where it should be. -/
theorem middle_toNat {inf sup : UInt32} (inf_le : inf.toNat ≤ sup.toNat)
    (wide : ¬ sup - inf ≤ 100) :
    100 < sup.toNat - inf.toNat ∧
      (inf + (sup - inf) / 2).toNat = inf.toNat + (sup.toNat - inf.toNat) / 2 := by
  have sup_lt := sup.toNat_lt
  rw [UInt32.le_iff_toNat_le, width_toNat inf_le, not_le] at wide
  refine ⟨wide, ?_⟩
  rw [UInt32.toNat_add, UInt32.toNat_div, width_toNat inf_le]
  change (inf.toNat + (sup.toNat - inf.toNat) / 2) % 2 ^ 32 = _
  rw [Nat.mod_eq_of_lt (by omega)]

/-- The tests on the right of a multiplier stay in the interval. -/
theorem rightProbe_bounds {alphaMul sup : UInt32} (alphaMul_lt : alphaMul.toNat < sup.toNat)
    {i : ℕ} (i_le : i ≤ 10) :
    alphaMul.toNat + 1 ≤ (rightProbe alphaMul sup i).toNat ∧
      (rightProbe alphaMul sup i).toNat ≤ sup.toNat := by
  have sup_lt := sup.toNat_lt
  have below : (sup - 1).toNat = sup.toNat - 1 :=
    UInt32.toNat_sub_of_le _ _ (UInt32.le_iff_toNat_le.mpr (Nat.one_le_of_lt alphaMul_lt))
  have delta_eq : ((sup - 1 - alphaMul) / 10).toNat = (sup.toNat - 1 - alphaMul.toNat) / 10 := by
    rw [UInt32.toNat_div, UInt32.toNat_sub_of_le _ _ (UInt32.le_iff_toNat_le.mpr (by omega)), below]
    rfl
  have steps_le : i * ((sup.toNat - 1 - alphaMul.toNat) / 10) ≤
      10 * ((sup.toNat - 1 - alphaMul.toNat) / 10) := Nat.mul_le_mul_right _ i_le
  have probe_eq : (rightProbe alphaMul sup i).toNat = ((alphaMul.toNat + 1) % 2 ^ 32 +
      i * ((sup.toNat - 1 - alphaMul.toNat) / 10) % 2 ^ 32) % 2 ^ 32 := by
    rw [rightProbe, UInt32.toNat_add, UInt32.toNat_add, UInt32.toNat_mul, delta_eq,
      UInt32.toNat_ofNat', Nat.mod_eq_of_lt (by omega : i < 2 ^ 32)]
    rfl
  rw [probe_eq]
  generalize i * ((sup.toNat - 1 - alphaMul.toNat) / 10) = steps at steps_le ⊢
  omega

/-- Those on the left do not pass the multiplier. -/
theorem leftProbe_bounds {alphaMul inf : UInt32} (inf_lt : inf.toNat < alphaMul.toNat) {i : ℕ}
    (i_le : i ≤ 10) :
    inf.toNat ≤ (leftProbe alphaMul inf i).toNat ∧
      (leftProbe alphaMul inf i).toNat + 1 ≤ alphaMul.toNat := by
  have alphaMul_lt := alphaMul.toNat_lt
  have width_eq : (alphaMul - inf).toNat = alphaMul.toNat - inf.toNat :=
    UInt32.toNat_sub_of_le _ _ (UInt32.le_iff_toNat_le.mpr inf_lt.le)
  have delta_eq : ((alphaMul - inf - 1) / 10).toNat = (alphaMul.toNat - inf.toNat - 1) / 10 := by
    rw [UInt32.toNat_div, UInt32.toNat_sub_of_le _ _ (UInt32.le_iff_toNat_le.mpr ?_), width_eq]
    · rfl
    · rw [width_eq]
      exact Nat.sub_pos_of_lt inf_lt
  have steps_le : i * ((alphaMul.toNat - inf.toNat - 1) / 10) ≤
      10 * ((alphaMul.toNat - inf.toNat - 1) / 10) := Nat.mul_le_mul_right _ i_le
  have below : (alphaMul - 1).toNat = alphaMul.toNat - 1 :=
    UInt32.toNat_sub_of_le _ _ (UInt32.le_iff_toNat_le.mpr (Nat.one_le_of_lt inf_lt))
  have product_eq : (UInt32.ofNat i * ((alphaMul - inf - 1) / 10)).toNat =
      i * ((alphaMul.toNat - inf.toNat - 1) / 10) := by
    rw [UInt32.toNat_mul, delta_eq, UInt32.toNat_ofNat', Nat.mod_eq_of_lt (by omega : i < 2 ^ 32),
      Nat.mod_eq_of_lt (by omega)]
  rw [leftProbe, UInt32.toNat_sub_of_le _ _ (UInt32.le_iff_toNat_le.mpr (by omega)), below,
    product_eq]
  omega

theorem rightProbe_zero {alphaMul : UInt32} (alphaMul_lt : alphaMul.toNat + 1 < 2 ^ 32)
    (sup : UInt32) : (rightProbe alphaMul sup 0).toNat = alphaMul.toNat + 1 := by
  change (alphaMul + 1 + 0 * _ : UInt32).toNat = _
  rw [UInt32.zero_mul, UInt32.add_zero, UInt32.toNat_add]
  exact Nat.mod_eq_of_lt alphaMul_lt

theorem leftProbe_zero {alphaMul : UInt32} (alphaMul_pos : 0 < alphaMul.toNat) (inf : UInt32) :
    (leftProbe alphaMul inf 0).toNat = alphaMul.toNat - 1 := by
  change (alphaMul - 1 - 0 * _ : UInt32).toNat = _
  rw [UInt32.zero_mul, UInt32.sub_zero]
  exact UInt32.toNat_sub_of_le _ _ (UInt32.le_iff_toNat_le.mpr alphaMul_pos)

/-- The multipliers that are tested to halve an interval. -/
def Probed (inf sup multiplier : UInt32) : Prop :=
  ∃ i ≤ 10, multiplier = rightProbe (inf + (sup - inf) / 2) sup i ∨
    multiplier = leftProbe (inf + (sup - inf) / 2) inf i

theorem Probed.bounds {inf sup multiplier : UInt32} (probed : Probed inf sup multiplier)
    (inf_le : inf.toNat ≤ sup.toNat) (wide : ¬ sup - inf ≤ 100) :
    inf.toNat ≤ multiplier.toNat ∧ multiplier.toNat ≤ sup.toNat := by
  rcases middle_toNat inf_le wide with ⟨wide_nat, middle_eq⟩
  rcases probed with ⟨i, i_le, rfl | rfl⟩
  · have right := rightProbe_bounds (by omega : (inf + (sup - inf) / 2).toNat < sup.toNat) i_le
    omega
  · have left := leftProbe_bounds (by omega : inf.toNat < (inf + (sup - inf) / 2).toNat) i_le
    omega

/-- The intervals that halving the interval of all multipliers can reach. -/
inductive Halved (fixedVars : FixedVars) : UInt32 → UInt32 → Prop
  | whole : Halved fixedVars 0 (getMaxAlpha fixedVars)
  | left {inf sup : UInt32} (halved : Halved fixedVars inf sup) (wide : ¬ sup - inf ≤ 100) :
      Halved fixedVars inf (inf + (sup - inf) / 2)
  | right {inf sup : UInt32} (halved : Halved fixedVars inf sup) (wide : ¬ sup - inf ≤ 100) :
      Halved fixedVars (inf + (sup - inf) / 2) sup

theorem Halved.bounds {inf sup : UInt32} (halved : Halved fixedVars inf sup) :
    inf.toNat ≤ sup.toNat ∧ sup.toNat ≤ (getMaxAlpha fixedVars).toNat := by
  induction halved with
  | whole => exact ⟨Nat.zero_le _, le_refl _⟩
  | left halved wide ih =>
      rcases middle_toNat ih.1 wide with ⟨wide_nat, middle_eq⟩
      omega
  | right halved wide ih =>
      rcases middle_toNat ih.1 wide with ⟨wide_nat, middle_eq⟩
      omega

theorem slop_good (absorbs : AbsorbsAtMost costs bits)
    (positive : 1 ≤ (getMaxAlpha fixedVars).toNat) {inf sup : UInt32} {search : AlphaSearch}
    (products : ∀ multiplier, Probed inf sup multiplier →
      (multiplier * getMinAlpha fixedVars search.absorption).toNat ≤
        (getMaxAlpha fixedVars).toNat)
    (good : Good fixedVars bits search) :
    Good fixedVars bits (slop fixedVars costs (inf + (sup - inf) / 2) inf sup search).2 :=
  (keptByTests_good absorbs positive).slop
    (fun i i_le => products _ ⟨i, i_le, Or.inl rfl⟩)
    (fun i i_le => products _ ⟨i, i_le, Or.inr rfl⟩) good

/-- Multipliers are allowed themselves if they are not multiplied. -/
theorem slop_good_of_single (absorbs : AbsorbsAtMost costs bits)
    (positive : 1 ≤ (getMaxAlpha fixedVars).toNat) {inf sup : UInt32} {search : AlphaSearch}
    (halved : Halved fixedVars inf sup) (wide : ¬ sup - inf ≤ 100)
    (single : getMinAlpha fixedVars search.absorption = 1) (good : Good fixedVars bits search) :
    Good fixedVars bits (slop fixedVars costs (inf + (sup - inf) / 2) inf sup search).2 := by
  refine slop_good absorbs positive (fun multiplier probed => ?_) good
  rw [single, UInt32.mul_one]
  exact (probed.bounds halved.bounds.1 wide).2.trans halved.bounds.2

/-- The search ends if its tests and its last part stay within the bounds. -/
theorem findAlphaDicho_good
    (tests : ∀ inf sup search, Halved fixedVars inf sup → ¬ sup - inf ≤ 100 →
      Good fixedVars bits search →
      Good fixedVars bits (slop fixedVars costs (inf + (sup - inf) / 2) inf sup search).2)
    (last : ∀ inf sup search, Halved fixedVars inf sup → Good fixedVars bits search →
      ∃ final, findAlpha fixedVars costs (2 ^ 32 + 1)
          (inf * getMinAlpha fixedVars search.absorption)
          (maxAlphaBound fixedVars sup (getMinAlpha fixedVars search.absorption)) search =
        some final ∧ Good fixedVars bits final)
    {depth : ℕ} {inf sup : UInt32} {search : AlphaSearch} (halved : Halved fixedVars inf sup)
    (good : Good fixedVars bits search) (enough : sup.toNat - inf.toNat < depth) :
    ∃ final, findAlphaDicho fixedVars costs (2 ^ 32 + 1) depth inf sup search = some final ∧
      Good fixedVars bits final := by
  induction depth generalizing inf sup search with
  | zero => omega
  | succ depth ih =>
      rw [findAlphaDicho]
      split
      next => exact last inf sup search halved good
      next wide =>
        have slopes := tests inf sup search halved wide good
        rcases middle_toNat halved.bounds.1 wide with ⟨wide_nat, middle_eq⟩
        simp only
        split
        · exact ih (halved.right wide) slopes (by omega)
        · exact ih (halved.left wide) slopes (by omega)

/-- It is enough that this holds of all that the search can reach. -/
theorem searches_of_good
    (tests : ∀ costs, AbsorbsAtMost costs bits → ∀ inf sup search, Halved fixedVars inf sup →
      ¬ sup - inf ≤ 100 → Good fixedVars bits search →
      Good fixedVars bits (slop fixedVars costs (inf + (sup - inf) / 2) inf sup search).2)
    (last : ∀ costs, AbsorbsAtMost costs bits → ∀ inf sup search, Halved fixedVars inf sup →
      Good fixedVars bits search →
      ∃ final, findAlpha fixedVars costs (2 ^ 32 + 1)
          (inf * getMinAlpha fixedVars search.absorption)
          (maxAlphaBound fixedVars sup (getMinAlpha fixedVars search.absorption)) search =
        some final ∧ Good fixedVars bits final) : SearchesWithinBounds fixedVars bits := by
  intro costs absorbs
  rcases findAlphaDicho_good (tests costs absorbs) (last costs absorbs) Halved.whole
    (good_beforeSearch absorbs) (lt_of_le_of_lt (Nat.sub_le _ _)
      (getMaxAlpha fixedVars).toNat_lt) with ⟨final, returns, final_good⟩
  exact ⟨2 ^ 32 + 1, 2 ^ 32, final, returns, final_good.tested, final_good.optimum⟩

end Bounds

end PIROptimizer

end Xpir
