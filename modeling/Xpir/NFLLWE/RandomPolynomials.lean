import Xpir.NFLLWE.Encryption

/-!
# Random polynomials in memory

This file contains `setBoundedRandomPoly` on the arrays it writes: the random words,
which are reduced in place, and the polynomial, whose components follow one another.
With a bound, a reduced word is copied to all components; without one, two pointers
advance through the components, and each has its own words.

The closed forms `setBounded_apply` and `setUniform_apply` connect it with the
polynomials `boundedRandomPoly` and `uniformRandomPoly` that encryption is modelled
with.
-/

namespace Xpir

/-- The two arrays of `setBoundedRandomPoly`, with what has been added to their pointers. -/
structure RandomPolyState where
  rnd : ℕ → ℕ
  res : ℕ → ℕ
  rndPtr : ℕ
  resPtr : ℕ

namespace RandomPolyState

/-- Reduce a random word in place. -/
def clamp (state : RandomPolyState) (upperBound i : ℕ) : RandomPolyState :=
  let cell := state.rndPtr + i
  { state with rnd := Function.update state.rnd cell (boundedWord upperBound (state.rnd cell)) }

/-- Copy a random word to coefficient `i` of all components. -/
def copyAll (state : RandomPolyState) (polyDegree nbModuli i : ℕ) : RandomPolyState :=
  { state with
    res := forLoop nbModuli (fun cm res =>
      Function.update res (state.resPtr + (polyDegree * cm + i)) (state.rnd (state.rndPtr + i)))
      state.res }

/-- Copy a random word to coefficient `i` of the component the pointers are at. -/
def copyOne (state : RandomPolyState) (i : ℕ) : RandomPolyState :=
  { state with
    res := Function.update state.res (state.resPtr + i) (state.rnd (state.rndPtr + i)) }

/-- `rnd += polyDegree; res += polyDegree`. -/
def advance (state : RandomPolyState) (polyDegree : ℕ) : RandomPolyState :=
  { state with
    rndPtr := state.rndPtr + polyDegree
    resPtr := state.resPtr + polyDegree }

end RandomPolyState

section Sampling

variable (polyDegree nbModuli : ℕ)

/-- The mode for bounded noise. -/
def setBounded (upperBound : ℕ) (state : RandomPolyState) : RandomPolyState :=
  forLoop polyDegree
    (fun i state => (state.clamp upperBound i).copyAll polyDegree nbModuli i) state

/-- The mode for uniform polynomials. -/
def setUniform (moduli : ℕ → ℕ) (state : RandomPolyState) : RandomPolyState :=
  forLoop nbModuli (fun cm state =>
    (forLoop polyDegree (fun i state => (state.clamp (moduli cm) i).copyOne i) state).advance
      polyDegree) state

/-- The polynomial at `res`, from the words the generator gives. -/
def setBoundedRandomPoly (moduli res : ℕ → ℕ) (upperBound : ℕ) (uniform : Bool)
    (rnd : ℕ → ℕ) : ℕ → ℕ :=
  let start : RandomPolyState := { rnd, res, rndPtr := 0, resPtr := 0 }
  if uniform then (setUniform polyDegree nbModuli moduli start).res
  else (setBounded polyDegree nbModuli upperBound start).res

end Sampling

/-! ## Words -/

theorem boundedWord_of_lt {upperBound word : ℕ} (word_lt : word < upperBound) :
    boundedWord upperBound word = word := by
  have mask_le := Nat.le_pow_clog (show 1 < 2 by omega) upperBound
  simp only [boundedWord, Nat.and_two_pow_sub_one_eq_mod]
  rw [Nat.mod_eq_of_lt (by omega), if_neg (by omega)]

/-! ## Closed forms -/

section ClosedForms

variable {polyDegree nbModuli : ℕ}

theorem cell_div {cm i : ℕ} (i_lt : i < polyDegree) : (polyDegree * cm + i) / polyDegree = cm := by
  rw [Nat.mul_add_div (by omega), Nat.div_eq_of_lt i_lt, Nat.add_zero]

theorem cell_mod {cm i : ℕ} (i_lt : i < polyDegree) : (polyDegree * cm + i) % polyDegree = i := by
  rw [Nat.mul_add_mod, Nat.mod_eq_of_lt i_lt]

/-- The cells of one coefficient are `polyDegree` words apart. -/
theorem copyAll_apply {i : ℕ} (i_lt : i < polyDegree) (value : ℕ) (res : ℕ → ℕ) (cell : ℕ) :
    forLoop nbModuli (fun cm res => Function.update res (polyDegree * cm + i) value) res cell =
      if cell < polyDegree * nbModuli ∧ cell % polyDegree = i then value else res cell := by
  induction nbModuli with
  | zero => simp
  | succ count ih =>
      have next : polyDegree * (count + 1) = polyDegree * count + polyDegree := Nat.mul_succ _ _
      rw [forLoop_succ]
      by_cases written : cell = polyDegree * count + i
      · have position : cell % polyDegree = i := by
          rw [written, cell_mod i_lt]
        rw [written, Function.update_self, ← written, if_pos ⟨by omega, position⟩]
      · rw [Function.update_of_ne written, ih]
        have decomposition := Nat.div_add_mod cell polyDegree
        have before : cell % polyDegree = i → cell < polyDegree * (count + 1) →
            cell < polyDegree * count := by
          intro position inside
          have row_lt : cell / polyDegree < count + 1 := Nat.div_lt_of_lt_mul inside
          rcases Nat.lt_succ_iff_lt_or_eq.mp row_lt with earlier | last
          · have := Nat.mul_le_mul_left polyDegree (show cell / polyDegree + 1 ≤ count from earlier)
            rw [Nat.mul_succ] at this
            omega
          · rw [last] at decomposition
            omega
        congr 1
        simp only [eq_iff_iff]
        constructor
        · rintro ⟨inside, position⟩
          exact ⟨by omega, position⟩
        · rintro ⟨inside, position⟩
          exact ⟨before position inside, position⟩

/-- With a bound, all components have the same words. -/
theorem setBounded_apply (upperBound : ℕ) (rnd res : ℕ → ℕ) (cell : ℕ) :
    (setBounded polyDegree nbModuli upperBound
      { rnd, res, rndPtr := 0, resPtr := 0 }).res cell =
      if cell < polyDegree * nbModuli then boundedWord upperBound (rnd (cell % polyDegree))
      else res cell := by
  have closed : ∀ cell, (setBounded polyDegree nbModuli upperBound
      { rnd, res, rndPtr := 0, resPtr := 0 }).res cell =
      if cell < polyDegree * nbModuli ∧ cell % polyDegree < polyDegree then
        boundedWord upperBound (rnd (cell % polyDegree)) else res cell := by
    refine (forLoop_induction polyDegree _ _ (fun done (state : RandomPolyState) =>
      (state.rndPtr = 0 ∧ state.resPtr = 0 ∧ ∀ i, done ≤ i → state.rnd i = rnd i) ∧
      ∀ cell, state.res cell = if cell < polyDegree * nbModuli ∧ cell % polyDegree < done then
        boundedWord upperBound (rnd (cell % polyDegree)) else res cell) ?_ ?_).2
    · simp
    · rintro done state done_lt ⟨⟨rnd_start, res_start, untouched⟩, written⟩
      have word : (state.clamp upperBound done).rnd done = boundedWord upperBound (rnd done) := by
        simp [RandomPolyState.clamp, rnd_start, untouched done le_rfl]
      refine ⟨⟨rnd_start, res_start, ?_⟩, ?_⟩
      · intro i i_ge
        simp only [RandomPolyState.copyAll, RandomPolyState.clamp, rnd_start, Nat.zero_add]
        rw [Function.update_of_ne (by omega)]
        exact untouched i (by omega)
      · intro cell
        have copied := @copyAll_apply polyDegree nbModuli done done_lt
          ((state.clamp upperBound done).rnd done) state.res cell
        have unfolded : ((state.clamp upperBound done).copyAll polyDegree nbModuli done).res cell =
            forLoop nbModuli (fun cm res => Function.update res (polyDegree * cm + done)
              ((state.clamp upperBound done).rnd done)) state.res cell := by
          simp [RandomPolyState.copyAll, RandomPolyState.clamp, rnd_start, res_start]
        rw [unfolded, copied, word, written cell]
        by_cases now : cell % polyDegree = done
        · by_cases inside : cell < polyDegree * nbModuli
          · rw [if_pos ⟨inside, now⟩, if_pos ⟨inside, by omega⟩, now]
          · rw [if_neg (by tauto), if_neg (by tauto), if_neg (by tauto)]
        · rw [if_neg (by tauto)]
          congr 1
          simp only [eq_iff_iff]
          omega
  rw [closed]
  congr 1
  simp only [eq_iff_iff, and_iff_left_iff_imp]
  intro inside
  apply Nat.mod_lt
  rcases Nat.eq_zero_or_pos polyDegree with rfl | positive
  · simp at inside
  · exact positive

/-- One component, from the words its pointers are at. -/
theorem setComponent_apply (p : ℕ) (state : RandomPolyState) :
    let final := forLoop polyDegree (fun i state => (state.clamp p i).copyOne i) state
    (final.rndPtr = state.rndPtr ∧ final.resPtr = state.resPtr) ∧
    (∀ cell, final.rnd cell =
      if state.rndPtr ≤ cell ∧ cell < state.rndPtr + polyDegree then boundedWord p (state.rnd cell)
      else state.rnd cell) ∧
    ∀ cell, final.res cell =
      if state.resPtr ≤ cell ∧ cell < state.resPtr + polyDegree then
        boundedWord p (state.rnd (state.rndPtr + (cell - state.resPtr)))
      else state.res cell := by
  refine forLoop_induction polyDegree _ _ (fun done (current : RandomPolyState) =>
    (current.rndPtr = state.rndPtr ∧ current.resPtr = state.resPtr) ∧
    (∀ cell, current.rnd cell =
      if state.rndPtr ≤ cell ∧ cell < state.rndPtr + done then boundedWord p (state.rnd cell)
      else state.rnd cell) ∧
    ∀ cell, current.res cell =
      if state.resPtr ≤ cell ∧ cell < state.resPtr + done then
        boundedWord p (state.rnd (state.rndPtr + (cell - state.resPtr)))
      else state.res cell) ?_ ?_
  · refine ⟨⟨rfl, rfl⟩, ?_, ?_⟩
    · intro cell
      rw [if_neg (by omega)]
    · intro cell
      rw [if_neg (by omega)]
  · rintro done current done_lt ⟨⟨rnd_ptr, res_ptr⟩, reduced, written⟩
    have word := reduced (state.rndPtr + done)
    rw [if_neg (by omega)] at word
    refine ⟨⟨rnd_ptr, res_ptr⟩, ?_, ?_⟩
    · intro cell
      simp only [RandomPolyState.copyOne, RandomPolyState.clamp, rnd_ptr, word,
        Function.update_apply, reduced cell]
      by_cases now : cell = state.rndPtr + done
      · rw [if_pos now, if_pos (by omega), now]
      · rw [if_neg now]
        congr 1
        simp only [eq_iff_iff]
        omega
    · intro cell
      simp only [RandomPolyState.copyOne, RandomPolyState.clamp, rnd_ptr, res_ptr, word,
        Function.update_apply, written cell, if_true]
      by_cases now : cell = state.resPtr + done
      · rw [if_pos now, if_pos (by omega), now, Nat.add_sub_cancel_left]
      · rw [if_neg now]
        congr 1
        simp only [eq_iff_iff]
        omega

/-- Without a bound, each component has words of its own. -/
theorem setUniform_apply (moduli rnd res : ℕ → ℕ) (cell : ℕ) :
    (setUniform polyDegree nbModuli moduli { rnd, res, rndPtr := 0, resPtr := 0 }).res cell =
      if cell < polyDegree * nbModuli then boundedWord (moduli (cell / polyDegree)) (rnd cell)
      else res cell := by
  revert cell
  refine (forLoop_induction nbModuli _ _ (fun done (state : RandomPolyState) =>
    (state.rndPtr = polyDegree * done ∧ state.resPtr = polyDegree * done ∧
      ∀ cell, polyDegree * done ≤ cell → state.rnd cell = rnd cell) ∧
    ∀ cell, state.res cell = if cell < polyDegree * done then
      boundedWord (moduli (cell / polyDegree)) (rnd cell) else res cell) ?_ ?_).2
  · simp
  · rintro done state _ ⟨⟨rnd_ptr, res_ptr, untouched⟩, written⟩
    have component := @setComponent_apply polyDegree (moduli done) state
    simp only at component
    generalize forLoop polyDegree _ state = current at component ⊢
    rcases component with ⟨⟨rnd_kept, res_kept⟩, reduced, copied⟩
    have next : polyDegree * (done + 1) = polyDegree * done + polyDegree := Nat.mul_succ _ _
    refine ⟨⟨?_, ?_, ?_⟩, ?_⟩
    · simp only [RandomPolyState.advance, rnd_kept, rnd_ptr, next]
    · simp only [RandomPolyState.advance, res_kept, res_ptr, next]
    · intro cell cell_ge
      simp only [RandomPolyState.advance]
      rw [reduced, if_neg (by omega)]
      exact untouched cell (by omega)
    · intro cell
      simp only [RandomPolyState.advance]
      rw [copied, res_ptr, rnd_ptr]
      by_cases now : polyDegree * done ≤ cell ∧ cell < polyDegree * done + polyDegree
      · have row : cell / polyDegree = done := by
          apply Nat.div_eq_of_lt_le
          · rw [mul_comm]
            exact now.1
          · rw [mul_comm]
            omega
        rw [if_pos now, if_pos (by omega), row, Nat.add_sub_cancel' now.1, untouched cell now.1]
      · rw [if_neg now, written cell]
        congr 1
        simp only [eq_iff_iff]
        omega

/-- The cell of a coefficient lies inside the polynomial. -/
theorem cell_lt_size {cm i : ℕ} (cm_lt : cm < nbModuli) (i_lt : i < polyDegree) :
    polyDegree * cm + i < polyDegree * nbModuli := by
  calc polyDegree * cm + i < polyDegree * (cm + 1) := by rw [Nat.mul_succ]; omega
    _ ≤ polyDegree * nbModuli := Nat.mul_le_mul_left _ cm_lt

theorem bounded_cell {moduli res rnd : ℕ → ℕ} {upperBound cm i : ℕ} (cm_lt : cm < nbModuli)
    (i_lt : i < polyDegree) :
    setBoundedRandomPoly polyDegree nbModuli moduli res upperBound false rnd
      (polyDegree * cm + i) = boundedWord upperBound (rnd i) := by
  simp only [setBoundedRandomPoly, Bool.false_eq_true, if_false]
  rw [setBounded_apply, if_pos (cell_lt_size cm_lt i_lt), cell_mod i_lt]

theorem uniform_cell {moduli res rnd : ℕ → ℕ} {upperBound cm i : ℕ} (cm_lt : cm < nbModuli)
    (i_lt : i < polyDegree) :
    setBoundedRandomPoly polyDegree nbModuli moduli res upperBound true rnd
      (polyDegree * cm + i) = boundedWord (moduli cm) (rnd (polyDegree * cm + i)) := by
  simp only [setBoundedRandomPoly, if_true]
  rw [setUniform_apply, if_pos (cell_lt_size cm_lt i_lt), cell_div i_lt]

end ClosedForms

namespace NFLlib

variable (nfl : NFLlib) {res rnd : ℕ → ℕ} {i : ℕ} (cm : Fin nfl.nbModuli)

/-- The moduli of an instance, as the array the source reads. -/
def moduliArray (row : ℕ) : ℕ :=
  if row_lt : row < nfl.nbModuli then (nfl.moduli ⟨row, row_lt⟩).p else 0

/-- The polynomials of the embedding of encryption are those that the loops leave in a buffer. -/
theorem setBoundedRandomPoly_samples (upperBound : ℕ) (i_lt : i < nfl.polyDegree) :
    nfl.boundedRandomPoly upperBound rnd cm i =
        setBoundedRandomPoly nfl.polyDegree nfl.nbModuli nfl.moduliArray res upperBound false rnd
          (nfl.polyDegree * cm + i) ∧
      nfl.uniformRandomPoly (fun cm i => rnd (nfl.polyDegree * cm + i)) cm i =
        setBoundedRandomPoly nfl.polyDegree nfl.nbModuli nfl.moduliArray res upperBound true rnd
          (nfl.polyDegree * cm + i) := by
  constructor
  · exact (bounded_cell cm.isLt i_lt).symm
  · rw [uniform_cell cm.isLt i_lt, uniformRandomPoly, moduliArray, dif_pos cm.isLt]

end NFLlib

/-! ## Bounds and reachable values -/

/-- What a bounded polynomial promises, for all words of the generator. -/
structure BoundedSampling (polyDegree nbModuli : ℕ) (moduli : ℕ → ℕ) (upperBound : ℕ) : Prop where
  below : ∀ res rnd : ℕ → ℕ, ∀ cm < nbModuli, ∀ i < polyDegree,
    setBoundedRandomPoly polyDegree nbModuli moduli res upperBound false rnd
      (polyDegree * cm + i) < upperBound
  same : ∀ res rnd : ℕ → ℕ, ∀ cm < nbModuli, ∀ other < nbModuli, ∀ i < polyDegree,
    setBoundedRandomPoly polyDegree nbModuli moduli res upperBound false rnd
        (polyDegree * cm + i) =
      setBoundedRandomPoly polyDegree nbModuli moduli res upperBound false rnd
        (polyDegree * other + i)
  /-- Any choice of values, one for each position. -/
  reachable : ∀ target : ℕ → ℕ, (∀ i < polyDegree, target i < upperBound) →
    ∃ rnd : ℕ → ℕ, (∀ i, rnd i < 2 ^ 64) ∧
      ∀ res : ℕ → ℕ, ∀ cm < nbModuli, ∀ i < polyDegree,
        setBoundedRandomPoly polyDegree nbModuli moduli res upperBound false rnd
          (polyDegree * cm + i) = target i

/-- What a uniform polynomial promises, whatever the bound that is ignored. -/
structure UniformSampling (polyDegree nbModuli : ℕ) (moduli : ℕ → ℕ) (upperBound : ℕ) : Prop where
  below : ∀ res rnd : ℕ → ℕ, ∀ cm < nbModuli, ∀ i < polyDegree,
    setBoundedRandomPoly polyDegree nbModuli moduli res upperBound true rnd
      (polyDegree * cm + i) < moduli cm
  reachable : ∀ target : ℕ → ℕ → ℕ, (∀ cm < nbModuli, ∀ i < polyDegree, target cm i < moduli cm) →
    ∃ rnd : ℕ → ℕ, (∀ j, rnd j < 2 ^ 64) ∧
      ∀ res : ℕ → ℕ, ∀ cm < nbModuli, ∀ i < polyDegree,
        setBoundedRandomPoly polyDegree nbModuli moduli res upperBound true rnd
          (polyDegree * cm + i) = target cm i

section Bounds

variable {polyDegree nbModuli : ℕ} {moduli : ℕ → ℕ} {upperBound : ℕ}

theorem boundedSampling (upperBound_pos : 1 ≤ upperBound) (upperBound_lt : upperBound < 2 ^ 64) :
    BoundedSampling polyDegree nbModuli moduli upperBound := by
  constructor
  · intro res rnd cm cm_lt i i_lt
    rw [bounded_cell cm_lt i_lt]
    exact boundedWord_lt upperBound_pos _
  · intro res rnd cm cm_lt other other_lt i i_lt
    rw [bounded_cell cm_lt i_lt, bounded_cell other_lt i_lt]
  · intro target target_lt
    -- The generator may return the targets themselves.
    refine ⟨fun i => if i < polyDegree then target i else 0, ?_, ?_⟩
    · intro i
      dsimp only
      split
      · next i_lt =>
          have := target_lt i i_lt
          omega
      · omega
    · intro res cm cm_lt i i_lt
      rw [bounded_cell cm_lt i_lt, if_pos i_lt, boundedWord_of_lt (target_lt i i_lt)]

theorem uniformSampling (moduli_pos : ∀ cm < nbModuli, 0 < moduli cm)
    (moduli_lt : ∀ cm < nbModuli, moduli cm ≤ 2 ^ 63) :
    UniformSampling polyDegree nbModuli moduli upperBound := by
  constructor
  · intro res rnd cm cm_lt i i_lt
    rw [uniform_cell cm_lt i_lt]
    exact boundedWord_lt (moduli_pos cm cm_lt) _
  · intro target target_lt
    refine ⟨fun j => if j < polyDegree * nbModuli then target (j / polyDegree) (j % polyDegree)
      else 0, ?_, ?_⟩
    · intro j
      dsimp only
      split
      · next inside =>
          have row_lt : j / polyDegree < nbModuli := Nat.div_lt_of_lt_mul inside
          have degree_pos : 0 < polyDegree := by
            rcases Nat.eq_zero_or_pos polyDegree with rfl | positive
            · simp at inside
            · exact positive
          have := target_lt _ row_lt _ (Nat.mod_lt j degree_pos)
          have := moduli_lt _ row_lt
          omega
      · omega
    · intro res cm cm_lt i i_lt
      rw [uniform_cell cm_lt i_lt, if_pos (cell_lt_size cm_lt i_lt), cell_div i_lt, cell_mod i_lt,
        boundedWord_of_lt (target_lt cm cm_lt i i_lt)]

/--
Random polynomials respect their bounds for all words of the generator, and any
values within the bounds are reached.
-/
theorem setBoundedRandomPoly_sound (moduli_pos : ∀ cm < nbModuli, 0 < moduli cm)
    (moduli_lt : ∀ cm < nbModuli, moduli cm ≤ 2 ^ 63) :
    (∀ upperBound < 2 ^ 64, 1 ≤ upperBound → (∀ cm < nbModuli, upperBound < moduli cm) →
      BoundedSampling polyDegree nbModuli moduli upperBound) ∧
    ∀ upperBound, UniformSampling polyDegree nbModuli moduli upperBound :=
  ⟨fun _ upperBound_lt upperBound_pos _ => boundedSampling upperBound_pos upperBound_lt,
    fun _ => uniformSampling moduli_pos moduli_lt⟩

/-- The noise of 80 bits of security with one modulus just below a power of two. -/
theorem setBoundedRandomPoly_sound_noise :
    BoundedSampling 1024 1 (fun _ => 2 ^ 61 - 1) 399 ∧
      UniformSampling 1024 1 (fun _ => 2 ^ 61 - 1) 0 := by
  have sound := @setBoundedRandomPoly_sound 1024 1 (fun _ => 2 ^ 61 - 1) (by simp) (by simp)
  exact ⟨sound.1 399 (by decide) (by decide) (by simp), sound.2 0⟩

end Bounds

end Xpir
