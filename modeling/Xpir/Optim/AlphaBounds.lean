import Xpir.Optim.AlphaSearch

/-!
# The bounds of the search for an aggregation

The multipliers that are tested are bounded by the largest aggregation, but the values are not.
`searchesWithinBounds_iff` says for which fixed variables, and for which absorptions, the search
ends and no value out of bounds is tested.
-/

namespace Xpir

namespace PIROptimizer

variable (fixedVars : FixedVars)

/-- No multiplier that can be tested gives the largest number as a product. -/
def ProductsAllowed (bits : UInt32) : Prop :=
  ∀ inf sup multiplier minAlpha, Halved fixedVars inf sup → ¬ sup - inf ≤ 100 →
    Probed inf sup multiplier → 2 ≤ minAlpha.toNat →
    minAlpha.toNat ≤ bits.toNat ⌈/⌉ fixedVars.l.toNat →
    minAlpha.toNat ≤ (getMaxAlpha fixedVars).toNat → multiplier * minAlpha ≠ 4294967295

/--
The condition on the fixed variables and on what a ciphertext absorbs. With at most 100
elements to aggregate, the last part of the search is all of it.
-/
def StaysAllowed (bits : UInt32) : Prop :=
  let largest := (getMaxAlpha fixedVars).toNat
  if largest ≤ 100 then
    if fixedVars.alphaMax = 0 then True
    else if fixedVars.n.toNat < fixedVars.alphaMax.toNat then fixedVars.n.toNat = 100 ∨ bits = 0
    else ∀ minAlpha, 2 ≤ minAlpha → minAlpha ≤ bits.toNat ⌈/⌉ fixedVars.l.toNat →
      minAlpha ≤ largest →
        largest * minAlpha ≤ fixedVars.n.toNat ∨
          fixedVars.n.toNat / minAlpha ≤ largest / minAlpha
  else if largest = 2 ^ 32 - 1 then fixedVars.alphaMax = 0 ∨ bits = 0
  else if largest = 2 ^ 32 - 2 ∧ fixedVars.alphaMax = 0 then ProductsAllowed fixedVars bits
  else bits.toNat ≤ fixedVars.l.toNat

section Sufficient

variable {fixedVars costs} {bits : UInt32}
variable (n_pos : 1 ≤ fixedVars.n.toNat) (n_lt : fixedVars.n.toNat < 2 ^ 32)
  (l_pos : 1 ≤ fixedVars.l.toNat)

include n_pos n_lt in
theorem getMaxAlpha_pos : 1 ≤ (getMaxAlpha fixedVars).toNat := by
  rw [getMaxAlpha_toNat n_lt]
  split
  next => exact n_pos
  next limited =>
    rw [not_or] at limited
    exact Nat.one_le_iff_ne_zero.mpr fun zero => limited.1 (UInt32.toNat_inj.mp zero)

include n_pos n_lt l_pos

/-- An element fills a ciphertext. -/
theorem getMinAlpha_eq_one {absorption : UInt32}
    (absorption_le : absorption.toNat ≤ fixedVars.l.toNat) :
    getMinAlpha fixedVars absorption = 1 := by
  have largest_pos := getMaxAlpha_pos n_pos n_lt
  have quotient_le : absorption.toNat ⌈/⌉ fixedVars.l.toNat ≤ 1 := by
    rwa [ceilDiv_le_iff_le_mul l_pos, Nat.mul_one]
  apply UInt32.toNat_inj.mp
  rw [getMinAlpha_toNat n_pos n_lt l_pos, max_eq_left quotient_le, min_eq_left largest_pos]
  rfl

theorem getMinAlpha_bounds (absorption : UInt32) :
    1 ≤ (getMinAlpha fixedVars absorption).toNat ∧
      (getMinAlpha fixedVars absorption).toNat ≤ (getMaxAlpha fixedVars).toNat := by
  have largest_pos := getMaxAlpha_pos n_pos n_lt
  rw [getMinAlpha_toNat n_pos n_lt l_pos]
  exact ⟨le_min (le_max_left _ _) largest_pos, min_le_right _ _⟩

omit n_pos l_pos in
theorem maxAlphaBound_toNat (sup minAlpha : UInt32) :
    (maxAlphaBound fixedVars sup minAlpha).toNat =
      if fixedVars.n.toNat < (sup * minAlpha).toNat then fixedVars.n.toNat
      else min fixedVars.alphaMax.toNat (max 100 (sup * minAlpha).toNat) := by
  rw [maxAlphaBound]
  split
  · rw [UInt64.toNat_toUInt32, Nat.mod_eq_of_lt n_lt]
  · rw [min_toNat, max_toNat]
    rfl

/-- With nothing absorbed, each loop is left after its first test. -/
theorem searches_of_zero : SearchesWithinBounds fixedVars 0 := by
  have largest_pos := getMaxAlpha_pos n_pos n_lt
  have single : ∀ absorption : UInt32, absorption.toNat ≤ (0 : UInt32).toNat →
      getMinAlpha fixedVars absorption = 1 := fun absorption none =>
    getMinAlpha_eq_one n_pos n_lt l_pos (none.trans (Nat.zero_le _))
  refine searches_of_good (fun costs absorbs _ _ _ halved wide good =>
    slop_good_of_single absorbs largest_pos halved wide (single _ good.absorption) good) ?_
  intro costs absorbs inf sup search halved good
  refine findAlpha_zero absorbs largest_pos good ?_
  rw [single _ good.absorption, UInt32.mul_one]
  exact halved.bounds.1.trans halved.bounds.2

/-- Multipliers are the values that are tested. -/
theorem searches_of_single (large : 100 < (getMaxAlpha fixedVars).toNat)
    (below : (getMaxAlpha fixedVars).toNat + 1 < 2 ^ 32)
    (bits_le : bits.toNat ≤ fixedVars.l.toNat) : SearchesWithinBounds fixedVars bits := by
  have largest_pos := getMaxAlpha_pos n_pos n_lt
  have largest_eq := getMaxAlpha_toNat n_lt
  have single : ∀ absorption : UInt32, absorption.toNat ≤ bits.toNat →
      getMinAlpha fixedVars absorption = 1 := fun absorption le =>
    getMinAlpha_eq_one n_pos n_lt l_pos (le.trans bits_le)
  refine searches_of_good (fun costs absorbs _ _ _ halved wide good =>
    slop_good_of_single absorbs largest_pos halved wide (single _ good.absorption) good) ?_
  intro costs absorbs inf sup search halved good
  rcases halved.bounds with ⟨inf_le, sup_le⟩
  have bound_le : (maxAlphaBound fixedVars sup 1).toNat ≤ (getMaxAlpha fixedVars).toNat := by
    rw [maxAlphaBound_toNat n_lt, UInt32.mul_one]
    split at largest_eq <;> split <;> omega
  refine findAlpha_good absorbs largest_pos good ?_ ?_ fun k le => ?_
  all_goals rw [single _ good.absorption] at *
  · decide
  · change (maxAlphaBound fixedVars sup 1).toNat + 1 < 2 ^ 32
    omega
  · exact le.trans bound_le

/-- Every value is allowed, and the last part tests nothing but the first of its values. -/
theorem searches_of_unlimited (largest_eq : (getMaxAlpha fixedVars).toNat = 2 ^ 32 - 1)
    (unlimited : fixedVars.alphaMax = 0) : SearchesWithinBounds fixedVars bits := by
  have largest_pos := getMaxAlpha_pos n_pos n_lt
  have everything : ∀ alpha : UInt32, alpha.toNat ≤ (getMaxAlpha fixedVars).toNat := by
    intro alpha
    have alpha_lt := alpha.toNat_lt
    omega
  have n_eq : fixedVars.n.toNat = 2 ^ 32 - 1 := by
    rw [getMaxAlpha_toNat n_lt, if_pos (Or.inl unlimited)] at largest_eq
    exact largest_eq
  refine searches_of_good (fun costs absorbs _ _ _ _ _ good =>
    (keptByTests_good absorbs largest_pos).slop (fun _ _ => everything _)
      (fun _ _ => everything _) good) ?_
  intro costs absorbs inf sup search halved good
  rcases getMinAlpha_bounds n_pos n_lt l_pos search.absorption with ⟨step_pos, step_le⟩
  have bound_eq : (maxAlphaBound fixedVars sup
      (getMinAlpha fixedVars search.absorption)).toNat = 0 := by
    have product_lt := (sup * getMinAlpha fixedVars search.absorption).toNat_lt
    rw [maxAlphaBound_toNat n_lt, if_neg (by omega), unlimited]
    exact Nat.zero_min _
  refine findAlpha_good absorbs largest_pos good step_pos ?_ fun k le => ?_
  · have step_lt := (getMinAlpha fixedVars search.absorption).toNat_lt
    omega
  · omega

omit n_pos n_lt l_pos in
/-- The steps of the last part reach the largest number, where it ends. -/
theorem findAlpha_reaches (absorbs : AbsorbsAtMost costs bits)
    (largest_eq : (getMaxAlpha fixedVars).toNat = 2 ^ 32 - 2) {alphaMin sup bound : UInt32}
    {search : AlphaSearch} (good : Good fixedVars bits search)
    (reaches : sup * getMinAlpha fixedVars search.absorption = 4294967295)
    (bound_eq : bound.toNat = 2 ^ 32 - 2) :
    ∃ final, findAlpha fixedVars costs (2 ^ 32 + 1) alphaMin bound search = some final ∧
      Good fixedVars bits final := by
  generalize step_eq : getMinAlpha fixedVars search.absorption = step at reaches
  -- `sup + currentAlpha * sup` is the number of steps that are left.
  have kept : ∀ loop : AlphaLoop, Good fixedVars bits loop.search →
      (!loop.broken && decide (loop.currentAlpha ≤ bound)) = true →
      ∃ next, some (alphaStep costs step loop) = some next ∧ Good fixedVars bits next.search ∧
        (if next.broken then 0 else (sup + next.currentAlpha * sup).toNat + 1) <
          if loop.broken then 0 else (sup + loop.currentAlpha * sup).toNat + 1 := by
    rintro loop loop_good continues
    simp only [Bool.and_eq_true, Bool.not_eq_true', decide_eq_true_eq] at continues
    have current_le := UInt32.le_iff_toNat_le.mp continues.2
    have tested_good := keptByTests_good absorbs (by omega) loop.currentAlpha loop.search
      (by omega) loop_good
    refine ⟨_, rfl, ?_, ?_⟩
    · rw [alphaStep]
      split <;> exact tested_good
    · rw [alphaStep]
      split
      · simp only [if_true, continues.1, Bool.false_eq_true, if_false]
        exact Nat.succ_pos _
      · simp only [continues.1, Bool.false_eq_true, if_false]
        have left_ne : sup + loop.currentAlpha * sup ≠ 0 := by
          intro none
          have current_eq : loop.currentAlpha = 4294967295 := by grind
          rw [current_eq, bound_eq] at current_le
          exact absurd current_le (by decide)
        have left_pos : (1 : UInt32).toNat ≤ (sup + loop.currentAlpha * sup).toNat :=
          Nat.pos_of_ne_zero fun zero => left_ne (UInt32.toNat_inj.mp zero)
        have next_eq : sup + (loop.currentAlpha + step) * sup =
            sup + loop.currentAlpha * sup - 1 := by grind
        rw [next_eq, UInt32.toNat_sub_of_le _ _ (UInt32.le_iff_toNat_le.mpr left_pos)]
        exact Nat.succ_lt_succ (Nat.sub_lt left_pos Nat.one_pos)
  have left_lt := (sup + alphaMin * sup).toNat_lt
  rcases whileLoop_total _ _ _ _ kept (2 ^ 32 + 1)
    { search := search, currentAlpha := alphaMin, broken := false } good
    (by simp only [Bool.false_eq_true, if_false]; omega) with ⟨loop, runs, final_good, _⟩
  exact ⟨loop.search, by rw [findAlpha, step_eq, runs, Option.map_some], final_good⟩

/-- Without a limit, the only value of 32 bits that is not allowed is the largest one. -/
theorem searches_of_products (largest_eq : (getMaxAlpha fixedVars).toNat = 2 ^ 32 - 2)
    (unlimited : fixedVars.alphaMax = 0) (products : ProductsAllowed fixedVars bits) :
    SearchesWithinBounds fixedVars bits := by
  have largest_pos := getMaxAlpha_pos n_pos n_lt
  have n_eq : fixedVars.n.toNat = 2 ^ 32 - 2 := by
    rw [getMaxAlpha_toNat n_lt, if_pos (Or.inl unlimited)] at largest_eq
    exact largest_eq
  have allowed : ∀ {alpha : UInt32}, alpha ≠ 4294967295 →
      alpha.toNat ≤ (getMaxAlpha fixedVars).toNat := by
    intro alpha other
    have alpha_lt := alpha.toNat_lt
    have other_nat : alpha.toNat ≠ 4294967295 := fun eq => other (UInt32.toNat_inj.mp eq)
    omega
  refine searches_of_good ?_ ?_
  · intro costs absorbs inf sup search halved wide good
    have step_eq := getMinAlpha_toNat n_pos n_lt l_pos search.absorption
    have quotient_le : search.absorption.toNat ⌈/⌉ fixedVars.l.toNat ≤
        bits.toNat ⌈/⌉ fixedVars.l.toNat := by
      rw [ceilDiv_le_iff_le_mul l_pos]
      exact good.absorption.trans ((ceilDiv_le_iff_le_mul l_pos).mp (le_refl _))
    rcases Nat.lt_or_ge (getMinAlpha fixedVars search.absorption).toNat 2 with single | several
    · have is_one : getMinAlpha fixedVars search.absorption = 1 := UInt32.toNat_inj.mp
        (le_antisymm (Nat.le_of_lt_succ single)
          (getMinAlpha_bounds n_pos n_lt l_pos search.absorption).1)
      exact slop_good_of_single absorbs largest_pos halved wide is_one good
    · exact slop_good absorbs largest_pos (fun multiplier probed => allowed
        (products inf sup multiplier _ halved wide probed several (by omega) (by omega))) good
  · intro costs absorbs inf sup search halved good
    rcases getMinAlpha_bounds n_pos n_lt l_pos search.absorption with ⟨step_pos, step_le⟩
    have bound_eq := maxAlphaBound_toNat n_lt sup (getMinAlpha fixedVars search.absorption)
    by_cases reaches : sup * getMinAlpha fixedVars search.absorption = 4294967295
    · rw [reaches, if_pos (by rw [n_eq]; decide), n_eq] at bound_eq
      exact findAlpha_reaches absorbs largest_eq good reaches bound_eq
    · have product_le := allowed reaches
      rw [if_neg (by omega), unlimited, UInt32.toNat_zero, Nat.zero_min] at bound_eq
      refine findAlpha_good absorbs largest_pos good step_pos ?_ fun k le => ?_
      · omega
      · omega

/-- The last part of the search is all of it. -/
theorem searches_of_small (small : (getMaxAlpha fixedVars).toNat ≤ 100)
    (stays : StaysAllowed fixedVars bits) : SearchesWithinBounds fixedVars bits := by
  have largest_pos := getMaxAlpha_pos n_pos n_lt
  have largest_eq := getMaxAlpha_toNat n_lt
  rw [StaysAllowed] at stays
  simp only [small, if_true] at stays
  by_cases nothing : bits = 0
  · rw [nothing]
    exact searches_of_zero n_pos n_lt l_pos
  have narrow : ∀ {inf sup : UInt32}, Halved fixedVars inf sup → sup - inf ≤ 100 := by
    intro inf sup halved
    rcases halved.bounds with ⟨inf_le, sup_le⟩
    rw [UInt32.le_iff_toNat_le, width_toNat inf_le]
    change sup.toNat - inf.toNat ≤ 100
    omega
  refine searches_of_good (fun _ _ _ _ _ halved wide _ => absurd (narrow halved) wide) ?_
  intro costs absorbs inf sup search halved good
  cases halved with
  | left halved wide => exact absurd (narrow halved) wide
  | right halved wide => exact absurd (narrow halved) wide
  | whole =>
  rw [UInt32.zero_mul]
  have step_eq := getMinAlpha_toNat n_pos n_lt l_pos search.absorption
  have absorption_le : search.absorption.toNat ⌈/⌉ fixedVars.l.toNat ≤
      bits.toNat ⌈/⌉ fixedVars.l.toNat := by
    rw [ceilDiv_le_iff_le_mul l_pos]
    exact good.absorption.trans ((ceilDiv_le_iff_le_mul l_pos).mp (le_refl _))
  generalize absorbed_eq : search.absorption.toNat ⌈/⌉ fixedVars.l.toNat = absorbed
    at step_eq absorption_le
  have bound_eq := maxAlphaBound_toNat n_lt (getMaxAlpha fixedVars)
    (getMinAlpha fixedVars search.absorption)
  have product_le : (getMaxAlpha fixedVars).toNat *
      (getMinAlpha fixedVars search.absorption).toNat ≤ 100 * 100 :=
    Nat.mul_le_mul small (by omega)
  rw [UInt32.toNat_mul, Nat.mod_eq_of_lt (by omega)] at bound_eq
  have step_pos := (getMinAlpha_bounds n_pos n_lt l_pos search.absorption).1
  have inside : (maxAlphaBound fixedVars (getMaxAlpha fixedVars)
        (getMinAlpha fixedVars search.absorption)).toNat ≤ 100 * 100 ∧
      ∀ k, k * (getMinAlpha fixedVars search.absorption).toNat ≤
          (maxAlphaBound fixedVars (getMaxAlpha fixedVars)
            (getMinAlpha fixedVars search.absorption)).toNat →
        k * (getMinAlpha fixedVars search.absorption).toNat ≤
          (getMaxAlpha fixedVars).toNat := by
    rw [bound_eq]
    generalize (getMinAlpha fixedVars search.absorption).toNat = minAlpha
      at step_eq product_le step_pos
    generalize (getMaxAlpha fixedVars).toNat = largest at *
    by_cases unlimited : fixedVars.alphaMax = 0
    · rw [if_pos (Or.inl unlimited)] at largest_eq
      rw [unlimited, largest_eq]
      split
      next => exact ⟨by omega, fun k le => le⟩
      next => exact ⟨by simp, fun k le => le.trans (by simp)⟩
    · rw [if_neg unlimited] at stays
      by_cases more : fixedVars.n.toNat < fixedVars.alphaMax.toNat
      · rw [if_pos more, or_iff_left nothing] at stays
        rw [if_pos (Or.inr more), stays] at largest_eq
        rw [largest_eq] at product_le ⊢
        rw [stays] at more ⊢
        split <;> exact ⟨by omega, fun k le => le.trans (by omega)⟩
      · rw [if_neg more] at stays
        rw [if_neg (by tauto)] at largest_eq
        split
        next exceeds =>
          refine ⟨by omega, fun k le => ?_⟩
          have two_le : 2 ≤ minAlpha := by
            by_contra one
            have is_one : minAlpha = 1 := by omega
            rw [is_one, Nat.mul_one] at exceeds
            omega
          rcases stays minAlpha two_le (by omega) (by omega) with fits | quotients
          · omega
          · have multiplier_le : k ≤ largest / minAlpha :=
              le_trans ((Nat.le_div_iff_mul_le (by omega)).mpr le) quotients
            exact (Nat.le_div_iff_mul_le (by omega)).mp multiplier_le
        next => exact ⟨by omega, fun k le => le.trans (by omega)⟩
  refine findAlpha_good absorbs largest_pos good step_pos ?_ fun k => ?_
  · omega
  · simpa using inside.2 k

end Sufficient

section Necessary

variable {fixedVars} {bits : UInt32}

/-- The ciphertexts always absorb the same, and the costs go down with the aggregation. -/
def steadyCosts (absorption : UInt32) : AlphaCosts where
  start := absorption
  absorption := fun _ => absorption
  value := fun alpha => (2 ^ 32 - alpha.toNat : ℕ)

theorem slop_absorption (costs : AlphaCosts) {absorption : UInt32}
    (same : ∀ alpha, costs.absorption alpha = absorption) {alphaMul inf sup : UInt32}
    {search : AlphaSearch} (absorbed : search.absorption = absorption) :
    (slop fixedVars costs alphaMul inf sup search).2.absorption = absorption := by
  have kept : KeptByTests costs (fun _ => True) (fun search => search.absorption = absorption) :=
    fun alpha _ _ _ => same (countedAlpha alpha)
  exact kept.slop (fun _ _ => trivial) (fun _ _ => trivial) absorbed

/-- The loop that starts with zero tests all multiples of its step up to its bound. -/
theorem findAlpha_tested {absorption bound step : UInt32} {fuel : ℕ}
    {search final : AlphaSearch} (absorbs : absorption ≠ 0)
    (step_eq : getMinAlpha fixedVars search.absorption = step)
    (returns : findAlpha fixedVars (steadyCosts absorption) fuel 0 bound search =
      some final)
    {k : ℕ} (k_le : k * step.toNat ≤ bound.toNat) :
    countedAlpha (UInt32.ofNat (k * step.toNat)) ∈ final.tested := by
  rcases Option.map_eq_some_iff.mp returns with ⟨loop, runs, rfl⟩
  rw [step_eq] at runs
  have bound_lt := bound.toNat_lt
  have reaches := whileLoop_invariant
    (fun loop => countedAlpha (UInt32.ofNat (k * step.toNat)) ∈ loop.search.tested ∨
      loop.broken = false ∧ ∃ j ≤ k, loop.currentAlpha.toNat = j * step.toNat)
    ?_ (Or.inr ⟨rfl, 0, Nat.zero_le k, by simp⟩) runs
  · rcases reaches with tested | ⟨unbroken, j, j_le, current_eq⟩
    · exact tested
    · have stops := whileLoop_stops runs
      simp only [unbroken, Bool.not_false, Bool.true_and, decide_eq_false_iff_not,
        UInt32.le_iff_toNat_le, current_eq, not_le] at stops
      exact absurd (Nat.mul_le_mul_right step.toNat j_le) (by omega)
  · rintro state next before continues steps
    simp only [Bool.and_eq_true, Bool.not_eq_true', decide_eq_true_eq,
      UInt32.le_iff_toNat_le] at continues
    have absorbed : (computeOptimVars (steadyCosts absorption) state.currentAlpha
        state.search).2.absorption ≠ 0 := absorbs
    rw [← Option.some.inj steps, alphaStep, if_neg absorbed]
    rcases before with tested | ⟨-, j, j_le, current_eq⟩
    · exact Or.inl (keptByTests_mem _ _ _ _ trivial tested)
    · rcases Nat.eq_or_lt_of_le j_le with rfl | j_lt
      · left
        rw [← current_eq, UInt32.ofNat_toNat]
        exact mem_tested _ _
      · refine Or.inr ⟨rfl, j + 1, j_lt, ?_⟩
        have next_le : (j + 1) * step.toNat ≤ k * step.toNat := Nat.mul_le_mul_right _ j_lt
        rw [Nat.add_one_mul] at next_le ⊢
        rw [UInt32.toNat_add, current_eq, Nat.mod_eq_of_lt (by omega)]

/-- The steps of the last part divide the numbers of 32 bits, and none passes its bound. -/
theorem findAlpha_endless {absorption bound step alphaMin : UInt32} {fuel : ℕ}
    {search : AlphaSearch} (absorbs : absorption ≠ 0)
    (step_eq : getMinAlpha fixedVars search.absorption = step)
    (whole : bound.toNat + step.toNat = 2 ^ 32) (divides : step.toNat ∣ 2 ^ 32)
    (starts : step.toNat ∣ alphaMin.toNat) :
    findAlpha fixedVars (steadyCosts absorption) fuel alphaMin bound search = none := by
  cases result : findAlpha fixedVars (steadyCosts absorption) fuel alphaMin bound search with
  | none => rfl
  | some final =>
      rcases Option.map_eq_some_iff.mp result with ⟨loop, runs, rfl⟩
      rw [step_eq] at runs
      have reaches := whileLoop_invariant
        (fun loop => loop.broken = false ∧ step.toNat ∣ loop.currentAlpha.toNat)
        ?_ ⟨rfl, starts⟩ runs
      · have stops := whileLoop_stops runs
        simp only [reaches.1, Bool.not_false, Bool.true_and, decide_eq_false_iff_not,
          UInt32.le_iff_toNat_le, not_le] at stops
        have current_lt := loop.currentAlpha.toNat_lt
        have next_le : loop.currentAlpha.toNat + step.toNat ≤ 2 ^ 32 :=
          Nat.ModEq.add_le_of_lt ((Nat.modEq_zero_iff_dvd.mpr reaches.2).trans
            (Nat.modEq_zero_iff_dvd.mpr divides).symm) current_lt
        omega
      · rintro state next ⟨-, state_divides⟩ - steps
        have absorbed : (computeOptimVars (steadyCosts absorption) state.currentAlpha
            state.search).2.absorption ≠ 0 := absorbs
        rw [← Option.some.inj steps, alphaStep, if_neg absorbed]
        refine ⟨rfl, ?_⟩
        rw [UInt32.toNat_add, Nat.dvd_mod_iff divides]
        exact Nat.dvd_add state_divides (dvd_refl _)

/-- Without products that wrap around, the costs go down on the right. -/
theorem slop_steadyCosts {absorption alphaMul inf sup step : UInt32} {search : AlphaSearch}
    (step_eq : getMinAlpha fixedVars search.absorption = step) (step_pos : 1 ≤ step.toNat)
    (inf_lt : inf.toNat < alphaMul.toNat) (alphaMul_lt : alphaMul.toNat < sup.toNat)
    (fits : sup.toNat * step.toNat < 2 ^ 32) :
    (slop fixedVars (steadyCosts absorption) alphaMul inf sup search).1 = true := by
  refine slop_right (fun alpha => 2 ^ 32 - alpha.toNat) (fun _ => rfl) (fun alpha => by omega)
    step_eq (2 ^ 32 - alphaMul.toNat * step.toNat) ⟨0, Nat.zero_le 10, ?_⟩ fun i i_le => ?_
  · rcases rightProbe_bounds alphaMul_lt (Nat.zero_le 10) with ⟨probe_ge, probe_le⟩
    have product_le := (Nat.mul_le_mul_right step.toNat probe_le).trans_lt fits
    have product_ge := Nat.mul_le_mul_right step.toNat probe_ge
    rw [Nat.add_one_mul] at product_ge
    rw [countedAlpha_toNat, UInt32.toNat_mul, Nat.mod_eq_of_lt product_le]
    omega
  · rcases leftProbe_bounds inf_lt i_le with ⟨-, probe_lt⟩
    have product_lt := Nat.mul_le_mul_right step.toNat probe_lt
    have middle_le := (Nat.mul_le_mul_right step.toNat alphaMul_lt.le).trans_lt fits
    rw [Nat.add_one_mul] at product_lt
    rw [countedAlpha_toNat, UInt32.toNat_mul, Nat.mod_eq_of_lt (by omega)]
    omega

/-- If the last step ends with the numbers of 32 bits, so does the search on the right. -/
theorem findAlphaDicho_endless (n_lt : fixedVars.n.toNat < 2 ^ 32)
    {absorption sup step : UInt32} (absorbs : absorption ≠ 0)
    (step_eq : getMinAlpha fixedVars absorption = step)
    (whole : (sup.toNat + 1) * step.toNat = 2 ^ 32)
    (n_ge : sup.toNat * step.toNat ≤ fixedVars.n.toNat)
    (alphaMax_ge : sup.toNat * step.toNat ≤ fixedVars.alphaMax.toNat)
    (wide : 100 ≤ sup.toNat * step.toNat) {fuel depth : ℕ} {inf : UInt32} {search : AlphaSearch}
    (inf_le : inf.toNat ≤ sup.toNat) (absorbed : search.absorption = absorption) :
    findAlphaDicho fixedVars (steadyCosts absorption) fuel depth inf sup search = none := by
  have step_pos : 1 ≤ step.toNat := Nat.pos_of_ne_zero fun zero => by
    rw [zero, Nat.mul_zero] at whole
    omega
  have divides : step.toNat ∣ 2 ^ 32 := Dvd.intro_left _ whole
  rw [Nat.add_one_mul] at whole
  have product_eq : (sup * step).toNat = sup.toNat * step.toNat := by
    rw [UInt32.toNat_mul, Nat.mod_eq_of_lt (by omega)]
  induction depth generalizing inf search with
  | zero => rfl
  | succ depth ih =>
      rw [findAlphaDicho]
      split
      next =>
        have bound_eq : (maxAlphaBound fixedVars sup step).toNat = sup.toNat * step.toNat := by
          rw [maxAlphaBound_toNat n_lt, product_eq, if_neg (by omega)]
          omega
        simp only [absorbed, step_eq]
        refine findAlpha_endless absorbs (by rw [absorbed, step_eq]) (by rw [bound_eq, whole])
          divides ?_
        rw [UInt32.toNat_mul, Nat.dvd_mod_iff divides]
        exact Nat.dvd_mul_left _ _
      next far =>
        rcases middle_toNat inf_le far with ⟨wide_nat, middle_eq⟩
        have goes : (slop fixedVars (steadyCosts absorption) (inf + (sup - inf) / 2) inf sup
            search).1 = true :=
          slop_steadyCosts (by rw [absorbed, step_eq]) step_pos (by omega) (by omega) (by omega)
        simp only [goes, if_true]
        exact ih (by omega) (slop_absorption _ (fun _ => rfl) absorbed)

theorem not_searches_of_tested {costs : AlphaCosts} (absorbs : AbsorbsAtMost costs bits)
    (alpha : UInt32) (notAllowed : ¬ Allowed fixedVars alpha)
    (tests : ∀ {fuel depth final}, findAlphaDicho fixedVars costs fuel depth 0
      (getMaxAlpha fixedVars) (beforeSearch costs) = some final → alpha ∈ final.tested) :
    ¬ SearchesWithinBounds fixedVars bits := by
  intro searches
  rcases searches costs absorbs with ⟨fuel, depth, final, returns, allowed, -⟩
  exact notAllowed (allowed alpha (tests returns))

theorem not_allowed_of_lt {alpha : UInt32} (larger : (getMaxAlpha fixedVars).toNat < alpha.toNat) :
    ¬ Allowed fixedVars alpha :=
  fun allowed => absurd allowed.2 (not_le.mpr larger)

/-- The least absorption that so many elements are needed for. -/
def leastAbsorption (fixedVars : FixedVars) (minAlpha : ℕ) : UInt32 :=
  UInt32.ofNat ((minAlpha - 1) * fixedVars.l.toNat + 1)

section Least

variable {minAlpha : ℕ} (l_pos : 1 ≤ fixedVars.l.toNat) (minAlpha_pos : 1 ≤ minAlpha)
  (needed : minAlpha ≤ bits.toNat ⌈/⌉ fixedVars.l.toNat)

include l_pos minAlpha_pos needed

theorem leastAbsorption_spec :
    (leastAbsorption fixedVars minAlpha).toNat = (minAlpha - 1) * fixedVars.l.toNat + 1 ∧
      (leastAbsorption fixedVars minAlpha).toNat ≤ bits.toNat := by
  have bits_lt := bits.toNat_lt
  have exceeds : fixedVars.l.toNat * (minAlpha - 1) < bits.toNat := by
    rw [← not_le, ← ceilDiv_le_iff_le_mul l_pos]
    omega
  rw [Nat.mul_comm] at exceeds
  rw [leastAbsorption, UInt32.toNat_ofNat', Nat.mod_eq_of_lt (by omega)]
  exact ⟨rfl, exceeds⟩

theorem leastAbsorption_ne_zero : leastAbsorption fixedVars minAlpha ≠ 0 := by
  intro zero
  have least_eq := (leastAbsorption_spec l_pos minAlpha_pos needed).1
  rw [zero] at least_eq
  exact absurd least_eq (by simp)

theorem absorbsAtMost_least :
    AbsorbsAtMost (steadyCosts (leastAbsorption fixedVars minAlpha)) bits :=
  ⟨(leastAbsorption_spec l_pos minAlpha_pos needed).2,
    fun _ => (leastAbsorption_spec l_pos minAlpha_pos needed).2⟩

theorem getMinAlpha_least (n_pos : 1 ≤ fixedVars.n.toNat) (n_lt : fixedVars.n.toNat < 2 ^ 32)
    (minAlpha_le : minAlpha ≤ (getMaxAlpha fixedVars).toNat) :
    (getMinAlpha fixedVars (leastAbsorption fixedVars minAlpha)).toNat = minAlpha := by
  have least_eq := (leastAbsorption_spec l_pos minAlpha_pos needed).1
  have quotient_eq : ((minAlpha - 1) * fixedVars.l.toNat + 1) ⌈/⌉ fixedVars.l.toNat =
      minAlpha := by
    apply le_antisymm
    · rw [ceilDiv_le_iff_le_mul l_pos]
      rcases Nat.exists_eq_succ_of_ne_zero (Nat.one_le_iff_ne_zero.mp minAlpha_pos) with ⟨m, rfl⟩
      rw [Nat.succ_sub_one, Nat.mul_comm, Nat.mul_succ]
      omega
    · have exceeds : ¬ ((minAlpha - 1) * fixedVars.l.toNat + 1) ⌈/⌉ fixedVars.l.toNat ≤
          minAlpha - 1 := by
        rw [ceilDiv_le_iff_le_mul l_pos, Nat.mul_comm]
        omega
      omega
  rw [getMinAlpha_toNat n_pos n_lt l_pos, least_eq, quotient_eq]
  omega

end Least

section Failures

variable (n_pos : 1 ≤ fixedVars.n.toNat) (n_lt : fixedVars.n.toNat < 2 ^ 32)
  (l_pos : 1 ≤ fixedVars.l.toNat)

theorem wide_of_large (large : 100 < (getMaxAlpha fixedVars).toNat) :
    ¬ getMaxAlpha fixedVars - 0 ≤ 100 := by
  rw [UInt32.sub_zero, UInt32.le_iff_toNat_le]
  exact not_le.mpr large

include n_pos n_lt l_pos

theorem getMinAlpha_two (large : 100 < (getMaxAlpha fixedVars).toNat)
    (exceeds : fixedVars.l.toNat < bits.toNat) :
    2 ≤ bits.toNat ⌈/⌉ fixedVars.l.toNat ∧
      getMinAlpha fixedVars (leastAbsorption fixedVars 2) = 2 := by
  have needed : 2 ≤ bits.toNat ⌈/⌉ fixedVars.l.toNat := by
    have more : ¬ bits.toNat ⌈/⌉ fixedVars.l.toNat ≤ 1 := by
      rw [ceilDiv_le_iff_le_mul l_pos]
      omega
    omega
  exact ⟨needed, UInt32.toNat_inj.mp
    (getMinAlpha_least l_pos (by decide) needed n_pos n_lt (by omega))⟩

/-- The first value on the right of the middle is twice as large as its multiplier. -/
theorem not_searches_of_large (large : 100 < (getMaxAlpha fixedVars).toNat)
    (below : (getMaxAlpha fixedVars).toNat + 2 < 2 ^ 32)
    (exceeds : fixedVars.l.toNat < bits.toNat) : ¬ SearchesWithinBounds fixedVars bits := by
  rcases getMinAlpha_two n_pos n_lt l_pos large exceeds with ⟨needed, step_eq⟩
  have wide := wide_of_large large
  rcases middle_toNat (Nat.zero_le _) wide with ⟨-, middle_eq⟩
  have before_step : getMinAlpha fixedVars
      (beforeSearch (steadyCosts (leastAbsorption fixedVars 2))).absorption = 2 := step_eq
  have tested := (slop_tested (steadyCosts (leastAbsorption fixedVars 2))
    (0 + (getMaxAlpha fixedVars - 0) / 2) 0 (getMaxAlpha fixedVars) before_step
    (Nat.zero_le 10)).1
  refine not_searches_of_tested (absorbsAtMost_least l_pos (by decide) needed) _
    (not_allowed_of_lt ?_) fun returns => tested_of_slop wide tested returns
  rw [UInt32.toNat_zero, Nat.zero_add, Nat.sub_zero] at middle_eq
  rw [countedAlpha_toNat, UInt32.toNat_mul, rightProbe_zero (by omega), middle_eq]
  change _ < max 1 (((getMaxAlpha fixedVars).toNat / 2 + 1) * 2 % 2 ^ 32)
  omega

/-- The last part tests a multiple of its step above all multipliers. -/
theorem not_searches_of_small (small : (getMaxAlpha fixedVars).toNat ≤ 100) {minAlpha : ℕ}
    (minAlpha_pos : 1 ≤ minAlpha) (needed : minAlpha ≤ bits.toNat ⌈/⌉ fixedVars.l.toNat)
    (minAlpha_le : minAlpha ≤ (getMaxAlpha fixedVars).toNat) (k bound : ℕ)
    (bound_eq : ∀ step : UInt32, step.toNat = minAlpha →
      (maxAlphaBound fixedVars (getMaxAlpha fixedVars) step).toNat = bound)
    (k_le : k * minAlpha ≤ bound) (larger : (getMaxAlpha fixedVars).toNat < k * minAlpha) :
    ¬ SearchesWithinBounds fixedVars bits := by
  have absorbs := leastAbsorption_ne_zero l_pos minAlpha_pos needed
  have step_eq := getMinAlpha_least l_pos minAlpha_pos needed n_pos n_lt minAlpha_le
  generalize step_is : getMinAlpha fixedVars (leastAbsorption fixedVars minAlpha) = step at step_eq
  have step_bound := bound_eq step step_eq
  have multiple_lt : k * minAlpha < 2 ^ 32 := by
    have bound_lt := (maxAlphaBound fixedVars (getMaxAlpha fixedVars) step).toNat_lt
    omega
  have narrow : getMaxAlpha fixedVars - 0 ≤ 100 := by
    rw [UInt32.sub_zero]
    exact UInt32.le_iff_toNat_le.mpr small
  refine not_searches_of_tested (absorbsAtMost_least l_pos minAlpha_pos needed)
    (countedAlpha (UInt32.ofNat (k * minAlpha))) (not_allowed_of_lt ?_) ?_
  · rw [countedAlpha_toNat, UInt32.toNat_ofNat', Nat.mod_eq_of_lt multiple_lt]
    omega
  · intro fuel depth final returns
    cases depth with
    | zero => exact absurd returns (by simp [findAlphaDicho])
    | succ depth =>
        rw [findAlphaDicho, if_pos narrow] at returns
        have before_step : getMinAlpha fixedVars (beforeSearch (steadyCosts
            (leastAbsorption fixedVars minAlpha))).absorption = step := step_is
        simp only [before_step, UInt32.zero_mul] at returns
        have tested := findAlpha_tested absorbs before_step returns
          (k := k) (by rw [step_eq, step_bound]; exact k_le)
        rwa [step_eq] at tested

omit n_pos l_pos in
theorem getMaxAlpha_le (limited : fixedVars.alphaMax ≠ 0) :
    (getMaxAlpha fixedVars).toNat ≤ fixedVars.n.toNat ∧
      (getMaxAlpha fixedVars).toNat ≤ fixedVars.alphaMax.toNat := by
  rw [getMaxAlpha_toNat n_lt]
  simp only [limited, false_or]
  split <;> omega

/-- The search goes right until the last part, which does not end. -/
theorem not_searches_of_all (limited : fixedVars.alphaMax ≠ 0)
    (largest_eq : (getMaxAlpha fixedVars).toNat = 2 ^ 32 - 1) (absorbs : bits ≠ 0) :
    ¬ SearchesWithinBounds fixedVars bits := by
  rcases getMaxAlpha_le n_lt limited with ⟨le_n, le_alphaMax⟩
  have needed : 1 ≤ bits.toNat ⌈/⌉ fixedVars.l.toNat :=
    ceilDiv_pos l_pos (Nat.pos_of_ne_zero fun zero => absorbs (UInt32.toNat_inj.mp zero))
  have step_eq := getMinAlpha_least l_pos (le_refl 1) needed n_pos n_lt (by omega)
  intro searches
  rcases searches _ (absorbsAtMost_least l_pos (le_refl 1) needed) with
    ⟨fuel, depth, final, returns, -⟩
  rw [findAlphaDicho_endless n_lt (leastAbsorption_ne_zero l_pos (le_refl 1) needed) rfl
    (by rw [step_eq, largest_eq]; rfl) (by rw [step_eq]; omega) (by rw [step_eq]; omega)
    (by rw [step_eq]; omega) (Nat.zero_le _) rfl] at returns
  exact absurd returns (by simp)

/-- The search goes left, then right until the last part, which does not end. -/
theorem not_searches_of_even (limited : fixedVars.alphaMax ≠ 0)
    (largest_eq : (getMaxAlpha fixedVars).toNat = 2 ^ 32 - 2)
    (exceeds : fixedVars.l.toNat < bits.toNat) : ¬ SearchesWithinBounds fixedVars bits := by
  rcases getMaxAlpha_le n_lt limited with ⟨le_n, le_alphaMax⟩
  rcases getMinAlpha_two n_pos n_lt l_pos (by omega) exceeds with ⟨needed, step_eq⟩
  have largest_is : getMaxAlpha fixedVars = 4294967294 := UInt32.toNat_inj.mp largest_eq
  have goes : (slop fixedVars (steadyCosts (leastAbsorption fixedVars 2)) 2147483647 0 4294967294
      (beforeSearch (steadyCosts (leastAbsorption fixedVars 2)))).1 = false :=
    slop_left (fun alpha => 2 ^ 32 - alpha.toNat) (fun _ => rfl) (fun alpha => by omega) step_eq 4
      (by decide) ⟨0, Nat.zero_le 10, by decide⟩
  intro searches
  rcases searches _ (absorbsAtMost_least l_pos (by decide) needed) with
    ⟨fuel, depth, final, returns, -⟩
  cases depth with
  | zero => exact absurd returns (by simp [findAlphaDicho])
  | succ depth =>
      rw [findAlphaDicho, largest_is, if_neg (by decide)] at returns
      have middle_is : (0 + (4294967294 - 0) / 2 : UInt32) = 2147483647 := by decide
      simp only [middle_is, goes, Bool.false_eq_true, if_false] at returns
      rw [findAlphaDicho_endless n_lt (leastAbsorption_ne_zero l_pos (by decide) needed) step_eq
        (by decide) (by rw [largest_eq] at le_n; exact le_n)
        (by rw [largest_eq] at le_alphaMax; exact le_alphaMax) (by decide) (Nat.zero_le _)
        (slop_absorption _ (fun _ => rfl) rfl)] at returns
      exact absurd returns (by simp)

end Failures

section Pursuit

def distance (left right : UInt32) : ℕ :=
  (left.toNat - right.toNat) + (right.toNat - left.toNat)

/-- The multiplier of a value, where `one` is that of the value 1. -/
def multiplierOf (inverse one alpha : UInt32) : UInt32 :=
  if alpha = 1 then one else alpha * inverse

/-- The costs go down towards a target among the multipliers. -/
def pursuitCosts (absorption inverse one target : UInt32) : AlphaCosts where
  start := absorption
  absorption := fun _ => absorption
  value := fun alpha => distance (multiplierOf inverse one alpha) target

theorem multiplierOf_countedAlpha {step inverse one multiplier : UInt32}
    (inverse_eq : step * inverse = 1) (zero : multiplier = 0 → one = 0)
    (unit : multiplier = inverse → one = inverse) :
    multiplierOf inverse one (countedAlpha (multiplier * step)) = multiplier := by
  rw [multiplierOf, countedAlpha]
  by_cases product_zero : multiplier * step = 0
  · have multiplier_zero : multiplier = 0 := by grind
    rw [if_pos product_zero, if_pos rfl, zero multiplier_zero, multiplier_zero]
  · rw [if_neg product_zero]
    split
    next product_one =>
      have multiplier_eq : multiplier = inverse := by grind
      rw [unit multiplier_eq, multiplier_eq]
    next => grind

variable {absorption inverse one target step : UInt32}

/-- The search goes where the target is. -/
theorem slop_pursuit {inf sup : UInt32} {search : AlphaSearch} (inf_le : inf.toNat ≤ sup.toNat)
    (wide : ¬ sup - inf ≤ 100) (step_eq : getMinAlpha fixedVars search.absorption = step)
    (recovers : ∀ multiplier, Probed inf sup multiplier →
      multiplierOf inverse one (countedAlpha (multiplier * step)) = multiplier) :
    (slop fixedVars (pursuitCosts absorption inverse one target) (inf + (sup - inf) / 2) inf sup
      search).1 = decide ((inf + (sup - inf) / 2).toNat < target.toNat) := by
  rcases middle_toNat inf_le wide with ⟨wide_nat, middle_eq⟩
  have sup_lt := sup.toNat_lt
  have right_eq := fun i i_le => recovers _ ⟨i, i_le, Or.inl rfl⟩
  have left_eq := fun i i_le => recovers _ ⟨i, i_le, Or.inr rfl⟩
  have distance_lt : ∀ alpha, distance (multiplierOf inverse one alpha) target < 2 ^ 33 := by
    intro alpha
    have multiplier_lt := (multiplierOf inverse one alpha).toNat_lt
    have target_lt := target.toNat_lt
    rw [distance]
    omega
  by_cases right : (inf + (sup - inf) / 2).toNat < target.toNat
  · rw [decide_eq_true right]
    refine slop_right _ (fun _ => rfl) distance_lt step_eq
      (target.toNat - (inf + (sup - inf) / 2).toNat) ⟨0, Nat.zero_le 10, ?_⟩ fun i i_le => ?_
    · rw [right_eq 0 (Nat.zero_le 10), distance, rightProbe_zero (by omega)]
      omega
    · have probe_lt := (leftProbe_bounds (by omega : inf.toNat < (inf + (sup - inf) / 2).toNat)
        i_le).2
      rw [left_eq i i_le, distance]
      omega
  · rw [decide_eq_false right]
    refine slop_left _ (fun _ => rfl) distance_lt step_eq
      ((inf + (sup - inf) / 2).toNat + 1 - target.toNat) (fun i i_le => ?_) ⟨0, Nat.zero_le 10, ?_⟩
    · have probe_gt := (rightProbe_bounds (by omega : (inf + (sup - inf) / 2).toNat < sup.toNat)
        i_le).1
      rw [right_eq i i_le, distance]
      omega
    · rw [left_eq 0 (Nat.zero_le 10), distance, leftProbe_zero (by omega)]
      omega

/-- So it comes to each interval with the target in it. -/
theorem pursuit_reaches {fuel depth : ℕ} {final : AlphaSearch}
    (returns : findAlphaDicho fixedVars (pursuitCosts absorption inverse one target) fuel depth 0
      (getMaxAlpha fixedVars) (beforeSearch (pursuitCosts absorption inverse one target)) =
        some final)
    (step_eq : getMinAlpha fixedVars absorption = step)
    (recovers : ∀ inf sup multiplier, Halved fixedVars inf sup → ¬ sup - inf ≤ 100 →
      inf.toNat < target.toNat → target.toNat ≤ sup.toNat → Probed inf sup multiplier →
      multiplierOf inverse one (countedAlpha (multiplier * step)) = multiplier)
    {inf sup : UInt32} (halved : Halved fixedVars inf sup) (target_gt : inf.toNat < target.toNat)
    (target_le : target.toNat ≤ sup.toNat) :
    ∃ depth search, search.absorption = absorption ∧ findAlphaDicho fixedVars
      (pursuitCosts absorption inverse one target) fuel depth inf sup search = some final := by
  have halves : ∀ {inf sup : UInt32}, Halved fixedVars inf sup → ¬ sup - inf ≤ 100 →
      inf.toNat < target.toNat → target.toNat ≤ sup.toNat → ∀ {depth search},
      search.absorption = absorption →
      findAlphaDicho fixedVars (pursuitCosts absorption inverse one target) fuel depth inf sup
        search = some final →
      ∃ depth search, search.absorption = absorption ∧ findAlphaDicho fixedVars
        (pursuitCosts absorption inverse one target) fuel depth
        (if (inf + (sup - inf) / 2).toNat < target.toNat then inf + (sup - inf) / 2 else inf)
        (if (inf + (sup - inf) / 2).toNat < target.toNat then sup else inf + (sup - inf) / 2)
        search = some final := by
    intro inf sup halved wide target_gt target_le depth search absorbed reaches
    cases depth with
    | zero => exact absurd reaches (by simp [findAlphaDicho])
    | succ depth =>
        have slopes : (slop fixedVars (pursuitCosts absorption inverse one target)
            (inf + (sup - inf) / 2) inf sup search).2.absorption = absorption :=
          slop_absorption _ (fun _ => rfl) absorbed
        refine ⟨depth, _, slopes, ?_⟩
        rw [findAlphaDicho, if_neg wide] at reaches
        simp only [slop_pursuit halved.bounds.1 wide (by rw [absorbed, step_eq])
          fun multiplier => recovers inf sup multiplier halved wide target_gt target_le,
          decide_eq_true_eq] at reaches
        split at reaches
        next right =>
          rw [if_pos right, if_pos right]
          exact reaches
        next left =>
          rw [if_neg left, if_neg left]
          exact reaches
  induction halved with
  | whole => exact ⟨depth, _, rfl, returns⟩
  | left halved wide ih =>
      rcases middle_toNat halved.bounds.1 wide with ⟨wide_nat, middle_eq⟩
      rcases ih target_gt (by omega) with ⟨depth, search, absorbed, reaches⟩
      have half := halves halved wide target_gt (by omega) absorbed reaches
      rwa [if_neg (not_lt.mpr target_le), if_neg (not_lt.mpr target_le)] at half
  | right halved wide ih =>
      rcases middle_toNat halved.bounds.1 wide with ⟨wide_nat, middle_eq⟩
      rcases ih (by omega) target_le with ⟨depth, search, absorbed, reaches⟩
      have half := halves halved wide (by omega) target_le absorbed reaches
      rwa [if_pos target_gt, if_pos target_gt] at half

/-- Without the first interval, the tree of intervals is in two halves. -/
theorem Halved.half (largest_eq : getMaxAlpha fixedVars = 4294967294) {inf sup : UInt32}
    (halved : Halved fixedVars inf sup) :
    inf = 0 ∧ sup = 4294967294 ∨ sup.toNat ≤ 2147483647 ∨ 2147483647 ≤ inf.toNat := by
  induction halved with
  | whole => exact Or.inl ⟨rfl, largest_eq⟩
  | left halved wide ih =>
      rcases middle_toNat halved.bounds.1 wide with ⟨wide_nat, middle_eq⟩
      rcases ih with ⟨rfl, rfl⟩ | below | above
      · exact Or.inr (Or.inl (by decide))
      · exact Or.inr (Or.inl (by omega))
      · exact Or.inr (Or.inr above)
  | right halved wide ih =>
      rcases middle_toNat halved.bounds.1 wide with ⟨wide_nat, middle_eq⟩
      rcases ih with ⟨rfl, rfl⟩ | below | above
      · exact Or.inr (Or.inr (by decide))
      · exact Or.inr (Or.inl below)
      · exact Or.inr (Or.inr (by omega))

/-- The multipliers of the first interval are even, and none is zero. -/
theorem probed_whole {multiplier : UInt32} (probed : Probed 0 4294967294 multiplier) :
    multiplier.toNat % 2 = 0 ∧ multiplier ≠ 0 := by
  have all : ∀ i ≤ 10, ((rightProbe 2147483647 4294967294 i).toNat % 2 = 0 ∧
      rightProbe 2147483647 4294967294 i ≠ 0) ∧ (leftProbe 2147483647 0 i).toNat % 2 = 0 ∧
      leftProbe 2147483647 0 i ≠ 0 := by decide
  rcases probed with ⟨i, i_le, rfl | rfl⟩
  · exact (all i i_le).1
  · exact (all i i_le).2

theorem odd_of_mul_eq {left right : UInt32} {product : ℕ}
    (product_eq : (left * right).toNat = product) (odd : product % 2 = 1) :
    left.toNat % 2 = 1 := by
  rw [UInt32.toNat_mul] at product_eq
  by_contra even
  have divides : 2 ∣ left.toNat * right.toNat := Dvd.dvd.mul_right (by omega) _
  omega

section Products

variable (n_pos : 1 ≤ fixedVars.n.toNat) (n_lt : fixedVars.n.toNat < 2 ^ 32)
  (l_pos : 1 ≤ fixedVars.l.toNat)

include n_pos n_lt l_pos

/-- With a target next to it, a multiplier with a product that is not allowed is tested. -/
theorem productsAllowed_of_searches (largest_eq : (getMaxAlpha fixedVars).toNat = 2 ^ 32 - 2)
    (searches : SearchesWithinBounds fixedVars bits) : ProductsAllowed fixedVars bits := by
  intro inf sup multiplier minAlpha halved wide probed minAlpha_ge needed minAlpha_le product_eq
  have minAlpha_pos : 1 ≤ minAlpha.toNat := by omega
  have largest_is : getMaxAlpha fixedVars = 4294967294 := UInt32.toNat_inj.mp largest_eq
  have step_eq : getMinAlpha fixedVars (leastAbsorption fixedVars minAlpha.toNat) = minAlpha :=
    UInt32.toNat_inj.mp (getMinAlpha_least l_pos minAlpha_pos needed n_pos n_lt minAlpha_le)
  have inverse_eq : minAlpha * (0 - multiplier) = 1 := by grind
  have inverse_odd : (0 - multiplier).toNat % 2 = 1 := by
    rw [UInt32.mul_comm] at inverse_eq
    exact odd_of_mul_eq (congrArg UInt32.toNat inverse_eq) (by decide)
  rcases middle_toNat halved.bounds.1 wide with ⟨wide_nat, middle_eq⟩
  have multiplier_bounds := probed.bounds halved.bounds.1 wide
  have multiplier_odd := odd_of_mul_eq (congrArg UInt32.toNat product_eq) (by decide)
  have inverse_toNat : (0 - multiplier).toNat = 2 ^ 32 - multiplier.toNat := by
    have multiplier_lt := multiplier.toNat_lt
    rw [UInt32.toNat_sub]
    change (2 ^ 32 - multiplier.toNat + 0) % 2 ^ 32 = _
    omega
  generalize inverse_is : 0 - multiplier = inverse at inverse_eq inverse_odd inverse_toNat
  have recovers : ∀ inf' sup' probe, Halved fixedVars inf' sup' → ¬ sup' - inf' ≤ 100 →
      inf'.toNat < sup.toNat → sup.toNat ≤ sup'.toNat → Probed inf' sup' probe →
      multiplierOf inverse (if sup.toNat ≤ 2147483647 then 0 else inverse)
        (countedAlpha (probe * minAlpha)) = probe := by
    intro inf' sup' probe halved' wide' target_gt target_le probed'
    have probe_bounds := probed'.bounds halved'.bounds.1 wide'
    refine multiplierOf_countedAlpha inverse_eq (fun zero => ?_) fun unit => ?_
    · rcases halved'.half largest_is with ⟨rfl, rfl⟩ | below | above
      · exact absurd zero (probed_whole probed').2
      · exact if_pos (by omega)
      · rw [zero, UInt32.toNat_zero] at probe_bounds
        omega
    · rcases halved'.half largest_is with ⟨rfl, rfl⟩ | below | above
      · rw [← unit, (probed_whole probed').1] at inverse_odd
        exact absurd inverse_odd (by decide)
      · rw [unit] at probe_bounds
        omega
      · exact if_neg (by omega)
  have least_le := (leastAbsorption_spec l_pos minAlpha_pos needed).2
  rcases searches (pursuitCosts (leastAbsorption fixedVars minAlpha.toNat) inverse
    (if sup.toNat ≤ 2147483647 then 0 else inverse) sup) ⟨least_le, fun _ => least_le⟩ with
    ⟨fuel, depth, final, returns, allowed, -⟩
  rcases pursuit_reaches returns step_eq recovers halved (by omega) (le_refl _) with
    ⟨depth, search, absorbed, reaches⟩
  have search_step : getMinAlpha fixedVars search.absorption = minAlpha := by
    rw [absorbed, step_eq]
  have tested : countedAlpha (multiplier * minAlpha) ∈ final.tested := by
    rcases probed with ⟨i, i_le, rfl | rfl⟩
    · exact tested_of_slop wide (slop_tested _ _ _ _ search_step i_le).1 reaches
    · exact tested_of_slop wide (slop_tested _ _ _ _ search_step i_le).2 reaches
  have within := (allowed _ tested).2
  rw [product_eq, largest_is] at within
  exact absurd within (by decide)

end Products

end Pursuit

end Necessary

section Searches

variable {fixedVars} {bits : UInt32}
variable (n_pos : 1 ≤ fixedVars.n.toNat) (n_lt : fixedVars.n.toNat < 2 ^ 32)
  (l_pos : 1 ≤ fixedVars.l.toNat)

include n_pos n_lt l_pos

theorem staysAllowed_of_small (small : (getMaxAlpha fixedVars).toNat ≤ 100)
    (searches : SearchesWithinBounds fixedVars bits) : StaysAllowed fixedVars bits := by
  have largest_eq := getMaxAlpha_toNat n_lt
  have largest_pos := getMaxAlpha_pos n_pos n_lt
  rw [StaysAllowed]
  simp only [small, if_true]
  split
  next => trivial
  next limited =>
    split
    next more =>
      rw [if_pos (Or.inr more)] at largest_eq
      by_contra fails
      rw [not_or] at fails
      have needed : 1 ≤ bits.toNat ⌈/⌉ fixedVars.l.toNat :=
        ceilDiv_pos l_pos (Nat.pos_of_ne_zero fun zero => fails.2 (UInt32.toNat_inj.mp zero))
      refine not_searches_of_small n_pos n_lt l_pos small (le_refl 1) needed largest_pos
        (fixedVars.n.toNat + 1) (min fixedVars.alphaMax.toNat 100) (fun step step_eq => ?_)
        (by omega) (by omega) searches
      rw [maxAlphaBound_toNat n_lt, UInt32.toNat_mul, step_eq, largest_eq, Nat.mul_one,
        Nat.mod_eq_of_lt n_lt, if_neg (lt_irrefl _), max_eq_left (by omega)]
    next fewer =>
      rw [if_neg (by tauto)] at largest_eq
      intro minAlpha minAlpha_ge needed minAlpha_le
      by_contra fails
      rw [not_or, not_le, not_le] at fails
      have exceeds := (Nat.div_lt_iff_lt_mul (by omega)).mp fails.2
      have product_le : (getMaxAlpha fixedVars).toNat * minAlpha ≤ 100 * 100 :=
        Nat.mul_le_mul small (by omega)
      refine not_searches_of_small n_pos n_lt l_pos small (by omega) needed minAlpha_le
        (fixedVars.n.toNat / minAlpha) fixedVars.n.toNat (fun step step_eq => ?_)
        (Nat.div_mul_le_self fixedVars.n.toNat minAlpha) exceeds searches
      rw [maxAlphaBound_toNat n_lt, UInt32.toNat_mul, step_eq, Nat.mod_eq_of_lt (by omega),
        if_pos fails.1]

theorem staysAllowed_of_searches (searches : SearchesWithinBounds fixedVars bits) :
    StaysAllowed fixedVars bits := by
  rcases Nat.lt_or_ge 100 (getMaxAlpha fixedVars).toNat with large | small
  · have largest_lt := (getMaxAlpha fixedVars).toNat_lt
    rw [StaysAllowed]
    simp only [not_le.mpr large, if_false]
    split
    next largest_eq =>
      by_contra fails
      rw [not_or] at fails
      exact not_searches_of_all n_pos n_lt l_pos fails.1 largest_eq fails.2 searches
    next other =>
      split
      next unlimited => exact productsAllowed_of_searches n_pos n_lt l_pos unlimited.1 searches
      next rest =>
        by_contra exceeds
        rw [not_le] at exceeds
        by_cases even : (getMaxAlpha fixedVars).toNat = 2 ^ 32 - 2
        · exact not_searches_of_even n_pos n_lt l_pos (fun zero => rest ⟨even, zero⟩) even exceeds
            searches
        · exact not_searches_of_large n_pos n_lt l_pos large (by omega) exceeds searches
  · exact staysAllowed_of_small n_pos n_lt l_pos small searches

theorem searches_of_staysAllowed (stays : StaysAllowed fixedVars bits) :
    SearchesWithinBounds fixedVars bits := by
  rcases Nat.lt_or_ge 100 (getMaxAlpha fixedVars).toNat with large | small
  · have largest_lt := (getMaxAlpha fixedVars).toNat_lt
    rw [StaysAllowed] at stays
    simp only [not_le.mpr large, if_false] at stays
    split at stays
    next largest_eq =>
      rcases stays with unlimited | nothing
      · exact searches_of_unlimited n_pos n_lt l_pos largest_eq unlimited
      · rw [nothing]
        exact searches_of_zero n_pos n_lt l_pos
    next other =>
      split at stays
      next unlimited => exact searches_of_products n_pos n_lt l_pos unlimited.1 unlimited.2 stays
      next => exact searches_of_single n_pos n_lt l_pos large (by omega) stays
  · exact searches_of_small n_pos n_lt l_pos small stays

/--
When the search ends and tests nothing but aggregations that are allowed, for any cryptosystem
with ciphertexts that absorb at most `bits`.
-/
theorem searchesWithinBounds_iff :
    SearchesWithinBounds fixedVars bits ↔ StaysAllowed fixedVars bits :=
  ⟨staysAllowed_of_searches n_pos n_lt l_pos, searches_of_staysAllowed n_pos n_lt l_pos⟩

end Searches

theorem searchesWithinBounds_iff_hundred :
    SearchesWithinBounds { n := 100, alphaMax := 0, l := 8 } 20480 :=
  (searchesWithinBounds_iff (by decide) (by decide) (by decide)).mpr
    (by simp [StaysAllowed, getMaxAlpha])

/-- A thousand files of one kibibyte. -/
def thousandFiles : FixedVars := ⟨1000, 0, 8192⟩

/-- Ciphertexts of 2560 bytes are filled by three files, and the first value tested is 1503. -/
theorem not_searchesWithinBounds_thousand :
    ¬ ∃ fuel depth final, findAlphaDicho thousandFiles (steadyCosts 20480) fuel depth 0
        (getMaxAlpha thousandFiles) (beforeSearch (steadyCosts 20480)) = some final ∧
      ∀ alpha ∈ final.tested, Allowed thousandFiles alpha := by
  rintro ⟨fuel, depth, final, returns, allowed⟩
  have largest : getMaxAlpha thousandFiles = 1000 := by decide
  have step_eq :
      getMinAlpha thousandFiles (beforeSearch (steadyCosts 20480)).absorption = 3 := by
    apply UInt32.toNat_inj.mp
    rw [getMinAlpha_toNat (by decide) (by decide) (by decide), largest]
    decide
  rw [largest] at returns
  have wide : ¬ (1000 : UInt32) - 0 ≤ 100 := by decide
  have tested := (slop_tested (steadyCosts 20480) (0 + (1000 - 0) / 2) 0 1000 step_eq
    (Nat.zero_le 10)).1
  have notAllowed : ¬ Allowed thousandFiles
      (countedAlpha (rightProbe (0 + (1000 - 0) / 2) 1000 0 * 3)) := by
    refine not_allowed_of_lt ?_
    rw [largest]
    decide
  exact notAllowed (allowed _ (tested_of_slop wide tested returns))

end PIROptimizer

end Xpir
