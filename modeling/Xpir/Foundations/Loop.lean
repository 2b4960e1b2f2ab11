import Mathlib.Data.Nat.Basic
import Mathlib.Data.Set.Function
import Mathlib.Order.Basic
import Mathlib.Order.Interval.Set.Basic
import Mathlib.Tactic.Common

/-!
# Counted and conditional loops

This file interprets the two loop forms of an imperative source as functions on
the loop state. A counted loop runs its body on the indices `0, 1, …, count - 1`
and always ends. A conditional loop may run forever, so it takes a number of
iterations it is allowed to make and returns `none` when they do not suffice.

Each form comes with the rules used to reason about it: an invariant indexed by
the number of finished iterations for counted loops, an invariant together with
a decreasing measure for conditional loops that end, and an invariant implying
the guard for conditional loops that do not. A counted loop over an array whose
iterations touch disjoint sets of cells has a closed form, given by
`forLoop_apply_of_owner`.
-/

namespace Xpir

universe u v

variable {State : Type u}

/-- `for (i = 0; i < count; i++)` with the given body. -/
def forLoop (count : ℕ) (body : ℕ → State → State) (initial : State) : State :=
  match count with
  | 0 => initial
  | count + 1 => body count (forLoop count body initial)

@[simp]
theorem forLoop_zero (body : ℕ → State → State) (initial : State) :
    forLoop 0 body initial = initial := rfl

theorem forLoop_succ (count : ℕ) (body : ℕ → State → State) (initial : State) :
    forLoop (count + 1) body initial = body count (forLoop count body initial) := rfl

/-- An invariant that holds initially and is kept by every iteration holds at the end. -/
theorem forLoop_induction (count : ℕ) (body : ℕ → State → State) (initial : State)
    (invariant : ℕ → State → Prop) (base : invariant 0 initial)
    (step : ∀ index state, index < count → invariant index state →
      invariant (index + 1) (body index state)) :
    invariant count (forLoop count body initial) := by
  induction count with
  | zero => exact base
  | succ count ih =>
      rw [forLoop_succ]
      apply step count _ (Nat.lt_succ_self count)
      apply ih
      intro index state index_lt holds
      exact step index state (Nat.lt_succ_of_lt index_lt) holds

theorem forLoop_congr {left right : ℕ → State → State} {initial : State} {count : ℕ}
    (agree : ∀ index state, index < count → left index state = right index state) :
    forLoop count left initial = forLoop count right initial := by
  induction count with
  | zero => rfl
  | succ count ih =>
      rw [forLoop_succ, forLoop_succ, agree count _ (Nat.lt_succ_self count), ih]
      intro index state index_lt
      exact agree index state (Nat.lt_succ_of_lt index_lt)

/-- The iterations of a counted loop can be split at any point. -/
theorem forLoop_add (first count : ℕ) (body : ℕ → State → State) (initial : State) :
    forLoop (first + count) body initial =
      forLoop count (fun index => body (first + index)) (forLoop first body initial) := by
  induction count with
  | zero => rfl
  | succ count ih => rw [← Nat.add_assoc, forLoop_succ, forLoop_succ, ih]

/-- What a loop computes of a part of its state that the rest does not influence. -/
theorem forLoop_project {Part : Type v} {count : ℕ} {body : ℕ → State → State}
    {image : ℕ → Part → Part} (project : State → Part)
    (commutes : ∀ index state, index < count →
      project (body index state) = image index (project state)) (initial : State) :
    project (forLoop count body initial) = forLoop count image (project initial) := by
  induction count with
  | zero => rfl
  | succ count ih =>
      rw [forLoop_succ, forLoop_succ, commutes count _ (Nat.lt_succ_self count), ih]
      intro index state index_lt
      exact commutes index state (Nat.lt_succ_of_lt index_lt)

/-- A measure that every iteration increases by the same amount. -/
theorem forLoop_measure {count amount : ℕ} {body : ℕ → State → State} (measure : State → ℕ)
    (step : ∀ index state, index < count → measure (body index state) = measure state + amount)
    (initial : State) :
    measure (forLoop count body initial) = measure initial + count * amount := by
  induction count with
  | zero => simp
  | succ count ih =>
      rw [forLoop_succ, step count _ (Nat.lt_succ_self count), ih, Nat.succ_mul, Nat.add_assoc]
      intro index state index_lt
      exact step index state (Nat.lt_succ_of_lt index_lt)

/-- A loop on two independent variables is a pair of loops. -/
theorem forLoop_prod {Left : Type u} {Right : Type v} (count : ℕ) (left : ℕ → Left → Left)
    (right : ℕ → Right → Right) (first : Left) (second : Right) :
    forLoop count (fun i state => (left i state.1, right i state.2)) (first, second) =
      (forLoop count left first, forLoop count right second) := by
  induction count with
  | zero => rfl
  | succ count ih => rw [forLoop_succ, forLoop_succ, forLoop_succ, ih]

/--
Closed form of a counted loop over an array whose iteration `index` rewrites
exactly the cells it owns, and reads no others.
-/
theorem forLoop_apply_of_owner {Cell : Type v} {count : ℕ}
    {body : ℕ → (ℕ → Cell) → (ℕ → Cell)} (owner : ℕ → ℕ)
    (update : (ℕ → Cell) → ℕ → Cell)
    (body_apply : ∀ index array cell, index < count →
      body index array cell = if owner cell = index then update array cell else array cell)
    (local_update : ∀ left right cell,
      (∀ other, owner other = owner cell → left other = right other) →
        update left cell = update right cell)
    (array : ℕ → Cell) (cell : ℕ) :
    forLoop count body array cell =
      if owner cell < count then update array cell else array cell := by
  induction count generalizing cell with
  | zero => simp
  | succ count ih =>
      have earlier := ih (fun index array cell index_lt =>
        body_apply index array cell (Nat.lt_succ_of_lt index_lt))
      rw [forLoop_succ, body_apply count _ _ (Nat.lt_succ_self count)]
      by_cases owned : owner cell = count
      · rw [if_pos owned, if_pos (by omega)]
        apply local_update
        intro other sameOwner
        rw [earlier other, if_neg (by omega)]
      · rw [if_neg owned, earlier cell]
        by_cases before : owner cell < count
        · rw [if_pos before, if_pos (by omega)]
        · rw [if_neg before, if_neg (by omega)]

section Cells

variable {Index : Type u} {Value : Type v} [DecidableEq Index] {cell : ℕ → Index}

/-- A loop that rewrites one cell per iteration leaves the other cells alone. -/
theorem forLoop_update_of_ne {count : ℕ} (update : ℕ → Value → Value) (array : Index → Value)
    {index : Index} (other : ∀ i < count, index ≠ cell i) :
    forLoop count (fun i array => Function.update array (cell i) (update i (array (cell i)))) array
      index = array index := by
  induction count with
  | zero => rfl
  | succ count ih =>
      rw [forLoop_succ, Function.update_of_ne (other count (Nat.lt_succ_self count))]
      exact ih (fun i i_lt => other i (Nat.lt_succ_of_lt i_lt))

/-- A loop that rewrites a different cell in each iteration rewrites each of them once. -/
theorem forLoop_update_cell {count : ℕ} (injective : Set.InjOn cell (Set.Iio count))
    (update : ℕ → Value → Value) (array : Index → Value) {i : ℕ} (i_lt : i < count) :
    forLoop count (fun i array => Function.update array (cell i) (update i (array (cell i)))) array
      (cell i) = update i (array (cell i)) := by
  induction count with
  | zero => omega
  | succ count ih =>
      have distinct : ∀ other < count, cell count ≠ cell other := fun other other_lt same =>
        other_lt.ne' (injective (Nat.lt_succ_self count) (Nat.lt_succ_of_lt other_lt) same)
      rw [forLoop_succ]
      rcases Nat.lt_succ_iff_lt_or_eq.mp i_lt with before | rfl
      · rw [Function.update_of_ne (distinct i before).symm]
        exact ih (injective.mono (Set.Iio_subset_Iio (Nat.le_succ count))) before
      · rw [Function.update_self, forLoop_update_of_ne _ _ distinct]

end Cells

section Results

variable {Value : Type v} {cell : ℕ → Option Value} {count : ℕ}

/-- A counted loop that fills the cells of an array with results that may fail to exist. -/
def fillLoop (count : ℕ) (cell : ℕ → Option Value) (initial : ℕ → Value) : Option (ℕ → Value) :=
  forLoop count (fun index filled => filled.bind fun array =>
    (cell index).map (Function.update array index)) (some initial)

theorem exists_fillLoop (results : ∀ index < count, ∃ value, cell index = some value)
    (initial : ℕ → Value) : ∃ filled, fillLoop count cell initial = some filled := by
  induction count with
  | zero => exact ⟨initial, rfl⟩
  | succ count ih =>
      rcases ih fun index index_lt => results index (Nat.lt_succ_of_lt index_lt) with
        ⟨array, earlier⟩
      rcases results count (Nat.lt_succ_self count) with ⟨value, last⟩
      refine ⟨Function.update array count value, ?_⟩
      rw [fillLoop] at earlier ⊢
      rw [forLoop_succ, earlier, Option.bind_some, last, Option.map_some]

/-- All results exist if the array can be filled. -/
theorem exists_of_fillLoop {initial filled : ℕ → Value}
    (fills : fillLoop count cell initial = some filled) :
    ∀ index < count, cell index = some (filled index) := by
  induction count generalizing filled with
  | zero => exact fun index index_lt => absurd index_lt (Nat.not_lt_zero index)
  | succ count ih =>
      rw [fillLoop, forLoop_succ] at fills
      rcases Option.bind_eq_some_iff.mp fills with ⟨array, earlier, last⟩
      rcases Option.map_eq_some_iff.mp last with ⟨value, exists_last, updates⟩
      intro index index_lt
      rw [← updates]
      by_cases same : index = count
      · rw [same, Function.update_self, exists_last]
      · rw [Function.update_of_ne same]
        exact ih earlier index (by omega)

end Results

/-- Computations that all succeed. -/
theorem mapM_eq_some {Element Result : Type} {f : Element → Option Result} {g : Element → Result}
    {elements : List Element} (results : ∀ element ∈ elements, f element = some (g element)) :
    elements.mapM f = some (elements.map g) := by
  induction elements with
  | nil => rfl
  | cons element elements ih =>
      rw [List.mapM_cons, results element List.mem_cons_self,
        ih fun other other_mem => results other (List.mem_cons_of_mem element other_mem)]
      rfl

/-- The last round of a loop that may fail. -/
theorem foldlM_range_succ (body : State → ℕ → Option State) (initial : State) (count : ℕ) :
    (List.range (count + 1)).foldlM body initial =
      ((List.range count).foldlM body initial).bind fun state => body state count := by
  rw [List.range_succ, List.foldlM_append]
  simp

/-- `while (guard) body`, allowed to test its guard at most `fuel` times. -/
def whileLoop (guard : State → Bool) (body : State → Option State) :
    ℕ → State → Option State
  | 0, _ => none
  | fuel + 1, state =>
      if guard state then (body state).bind (whileLoop guard body fuel) else some state

@[simp]
theorem whileLoop_zero (guard : State → Bool) (body : State → Option State) (state : State) :
    whileLoop guard body 0 state = none := rfl

theorem whileLoop_of_guard {guard : State → Bool} {body : State → Option State}
    {state next : State} (fuel : ℕ) (continues : guard state = true)
    (steps : body state = some next) :
    whileLoop guard body (fuel + 1) state = whileLoop guard body fuel next := by
  simp [whileLoop, continues, steps]

theorem whileLoop_of_not_guard {guard : State → Bool} {body : State → Option State}
    {state : State} (fuel : ℕ) (stops : guard state = false) :
    whileLoop guard body (fuel + 1) state = some state := by
  simp [whileLoop, stops]

theorem whileLoop_congr {guard : State → Bool} {left right : State → Option State}
    (agree : ∀ state, guard state = true → left state = right state) (fuel : ℕ) (state : State) :
    whileLoop guard left fuel state = whileLoop guard right fuel state := by
  induction fuel generalizing state with
  | zero => rfl
  | succ fuel ih =>
      rw [whileLoop, whileLoop]
      split
      next continues =>
        rw [agree state continues]
        exact congrArg _ (funext ih)
      next => rfl

/--
Total correctness of a conditional loop: an invariant kept by every iteration
and a measure every iteration decreases.
-/
theorem whileLoop_total (guard : State → Bool) (body : State → Option State)
    (invariant : State → Prop) (measure : State → ℕ)
    (step : ∀ state, invariant state → guard state = true →
      ∃ next, body state = some next ∧ invariant next ∧ measure next < measure state)
    (fuel : ℕ) (state : State) (holds : invariant state) (enough : measure state < fuel) :
    ∃ final, whileLoop guard body fuel state = some final ∧ invariant final ∧
      guard final = false := by
  induction fuel generalizing state with
  | zero => omega
  | succ fuel ih =>
      cases continues : guard state with
      | false => exact ⟨state, whileLoop_of_not_guard fuel continues, holds, continues⟩
      | true =>
          rcases step state holds continues with ⟨next, steps, nextHolds, decreases⟩
          rw [whileLoop_of_guard fuel continues steps]
          exact ih next nextHolds (by omega)

/-- A result found with little fuel, by a body that has little fuel too, is not lost with more. -/
theorem whileLoop_mono {guard : State → Bool} {left right : State → Option State}
    (extends_body : ∀ state next, left state = some next → right state = some next)
    {fuel more : ℕ} (fuel_le : fuel ≤ more) {state final : State}
    (returns : whileLoop guard left fuel state = some final) :
    whileLoop guard right more state = some final := by
  induction fuel generalizing more state with
  | zero => exact absurd returns (by simp)
  | succ fuel ih =>
      rcases Nat.exists_eq_succ_of_ne_zero (by omega : more ≠ 0) with ⟨rest, rfl⟩
      cases continues : guard state with
      | false =>
          rw [whileLoop_of_not_guard fuel continues] at returns
          rw [whileLoop_of_not_guard rest continues, returns]
      | true =>
          rw [whileLoop, if_pos continues] at returns
          rcases Option.bind_eq_some_iff.mp returns with ⟨next, steps, remaining⟩
          rw [whileLoop_of_guard rest continues (extends_body state next steps)]
          exact ih (Nat.le_of_succ_le_succ fuel_le) remaining

/-- Partial correctness of a conditional loop. -/
theorem whileLoop_invariant {guard : State → Bool} {body : State → Option State}
    (invariant : State → Prop)
    (step : ∀ state next, invariant state → guard state = true → body state = some next →
      invariant next)
    {fuel : ℕ} {state final : State} (holds : invariant state)
    (returns : whileLoop guard body fuel state = some final) : invariant final := by
  induction fuel generalizing state with
  | zero => exact absurd returns (by simp)
  | succ fuel ih =>
      cases continues : guard state with
      | false =>
          rw [whileLoop_of_not_guard fuel continues] at returns
          exact Option.some.inj returns ▸ holds
      | true =>
          rw [whileLoop, if_pos continues] at returns
          rcases Option.bind_eq_some_iff.mp returns with ⟨next, steps, rest⟩
          exact ih (step state next holds continues steps) rest

theorem whileLoop_stops {guard : State → Bool} {body : State → Option State} {fuel : ℕ}
    {state final : State} (returns : whileLoop guard body fuel state = some final) :
    guard final = false := by
  induction fuel generalizing state with
  | zero => exact absurd returns (by simp)
  | succ fuel ih =>
      cases continues : guard state with
      | false =>
          rw [whileLoop_of_not_guard fuel continues] at returns
          exact Option.some.inj returns ▸ continues
      | true =>
          rw [whileLoop, if_pos continues] at returns
          rcases Option.bind_eq_some_iff.mp returns with ⟨next, _, rest⟩
          exact ih rest

/-- The loop gets from the first state to the last. -/
def LeadsTo (guard : State → Bool) (body : State → Option State) (first last : State) : Prop :=
  ∃ steps, ∀ fuel, whileLoop guard body (fuel + steps) first = whileLoop guard body fuel last

/-- The loop ends with the given state. -/
def EndsWith (guard : State → Bool) (body : State → Option State) (first final : State) : Prop :=
  ∃ fuel, whileLoop guard body fuel first = some final

section Runs

variable {guard : State → Bool} {body : State → Option State} {first middle last final : State}

theorem LeadsTo.refl (state : State) : LeadsTo guard body state state := ⟨0, fun _ => rfl⟩

theorem LeadsTo.step (continues : guard first = true) (steps : body first = some last) :
    LeadsTo guard body first last :=
  ⟨1, fun fuel => whileLoop_of_guard fuel continues steps⟩

theorem LeadsTo.trans (left : LeadsTo guard body first middle)
    (right : LeadsTo guard body middle last) : LeadsTo guard body first last := by
  rcases left with ⟨left_steps, left⟩
  rcases right with ⟨right_steps, right⟩
  refine ⟨right_steps + left_steps, fun fuel => ?_⟩
  rw [← Nat.add_assoc, left, right]

theorem LeadsTo.endsWith_iff (leads : LeadsTo guard body first last) :
    EndsWith guard body first final ↔ EndsWith guard body last final := by
  rcases leads with ⟨steps, leads⟩
  constructor
  · rintro ⟨fuel, returns⟩
    refine ⟨fuel, ?_⟩
    rw [← leads]
    exact whileLoop_mono (fun _ _ same => same) (Nat.le_add_right fuel steps) returns
  · rintro ⟨fuel, returns⟩
    exact ⟨fuel + steps, (leads fuel).trans returns⟩

theorem endsWith_iff_of_stops (stops : guard first = false) :
    EndsWith guard body first final ↔ final = first := by
  constructor
  · rintro ⟨fuel, returns⟩
    cases fuel with
    | zero => exact absurd returns (by simp)
    | succ fuel =>
        rw [whileLoop_of_not_guard fuel stops, Option.some.injEq] at returns
        exact returns.symm
  · rintro rfl
    exact ⟨1, whileLoop_of_not_guard 0 stops⟩

theorem not_endsWith_of_fails (continues : guard first = true) (fails : body first = none) :
    ¬ EndsWith guard body first final := by
  rintro ⟨fuel, returns⟩
  cases fuel with
  | zero => exact absurd returns (by simp)
  | succ fuel => exact absurd returns (by simp [whileLoop, continues, fails])

/-- The loop ends, in a state with the given property. -/
def EndsIn (guard : State → Bool) (body : State → Option State) (goal : State → Prop)
    (first : State) : Prop :=
  ∃ final, EndsWith guard body first final ∧ goal final

variable {goal : State → Prop}

theorem endsIn_iff_of_step (continues : guard first = true) (steps : body first = some middle) :
    EndsIn guard body goal first ↔ EndsIn guard body goal middle :=
  exists_congr fun _ => and_congr_left fun _ => (LeadsTo.step continues steps).endsWith_iff

theorem endsIn_iff_of_stops (stops : guard first = false) :
    EndsIn guard body goal first ↔ goal first := by
  constructor
  · rintro ⟨final, ends, holds⟩
    rwa [(endsWith_iff_of_stops stops).mp ends] at holds
  · intro holds
    exact ⟨first, (endsWith_iff_of_stops stops).mpr rfl, holds⟩

/-- An invariant that excludes the property wherever the loop stops. -/
theorem not_endsIn_of_invariant (invariant : State → Prop)
    (step : ∀ state next, invariant state → guard state = true → body state = some next →
      invariant next)
    (excludes : ∀ state, invariant state → guard state = false → ¬ goal state)
    (holds : invariant first) : ¬ EndsIn guard body goal first := by
  rintro ⟨final, ⟨fuel, returns⟩, reached⟩
  exact excludes final (whileLoop_invariant invariant step holds returns)
    (whileLoop_stops returns) reached

/-- Induction on the iterations that are left, from the last one back. -/
theorem EndsIn.backwards {motive : State → Prop}
    (stop : ∀ state, guard state = false → goal state → motive state)
    (step : ∀ state next, guard state = true → body state = some next →
      EndsIn guard body goal next → motive next → motive state)
    (ends : EndsIn guard body goal first) : motive first := by
  rcases ends with ⟨final, ⟨fuel, returns⟩, reached⟩
  induction fuel generalizing first with
  | zero => exact absurd returns (by simp)
  | succ fuel ih =>
      cases continues : guard first with
      | false =>
          rw [whileLoop_of_not_guard fuel continues] at returns
          rw [← Option.some.inj returns] at reached
          exact stop first continues reached
      | true =>
          rw [whileLoop, if_pos continues] at returns
          rcases Option.bind_eq_some_iff.mp returns with ⟨next, steps, rest⟩
          exact step first next continues steps ⟨final, ⟨fuel, rest⟩, reached⟩ (ih rest)

end Runs

/-- A conditional loop whose invariant implies its guard never returns. -/
theorem whileLoop_eq_none {guard : State → Bool} {body : State → Option State}
    (invariant : State → Prop) (continues : ∀ state, invariant state → guard state = true)
    (step : ∀ state next, invariant state → body state = some next → invariant next)
    (fuel : ℕ) {state : State} (holds : invariant state) :
    whileLoop guard body fuel state = none := by
  induction fuel generalizing state with
  | zero => rfl
  | succ fuel ih =>
      rw [whileLoop, if_pos (continues state holds)]
      cases steps : body state with
      | none => rfl
      | some next => exact ih (step state next holds steps)

section Counting

variable {range : ℕ}

/-- `for (i = first; i <= last; i++)` with a counter that takes its values below `range`. -/
def countLoop (range fuel first last : ℕ) (body : ℕ → State → Option State) (initial : State) :
    Option State :=
  (whileLoop (fun state : ℕ × State => state.1 ≤ last)
    (fun state => (body state.1 state.2).map fun next => ((state.1 + 1) % range, next))
    fuel (first, initial)).map Prod.snd

/-- As long as the counter does not wrap around, the body is run once for each value. -/
theorem countLoop_total (range fuel first last : ℕ) (body : ℕ → State → Option State)
    (initial : State) (invariant : ℕ → State → Prop) (holds : invariant first initial)
    (ordered : first ≤ last + 1)
    (step : ∀ i state, first ≤ i → i ≤ last → invariant i state →
      ∃ next, body i state = some next ∧ invariant (i + 1) next)
    (inside : last + 1 < range) (enough : last + 1 - first < fuel) :
    ∃ final, countLoop range fuel first last body initial = some final ∧
      invariant (last + 1) final := by
  rcases whileLoop_total (fun state : ℕ × State => state.1 ≤ last)
    (fun state => (body state.1 state.2).map fun next => ((state.1 + 1) % range, next))
    (fun state => first ≤ state.1 ∧ state.1 ≤ last + 1 ∧ invariant state.1 state.2)
    (fun state => last + 1 - state.1)
    (by
      rintro ⟨i, state⟩ ⟨first_le, _, current⟩ continues
      have i_le : i ≤ last := of_decide_eq_true continues
      rcases step i state first_le i_le current with ⟨next, steps, after⟩
      have next_i : (i + 1) % range = i + 1 := Nat.mod_eq_of_lt (by omega)
      refine ⟨(i + 1, next), ?_, ⟨by omega, by omega, after⟩, by omega⟩
      rw [steps, Option.map_some, next_i])
    fuel (first, initial) ⟨le_rfl, ordered, holds⟩ enough with
    ⟨⟨i, final⟩, runs, ⟨_, i_le, after⟩, stops⟩
  have i_gt : ¬ i ≤ last := of_decide_eq_false stops
  have i_eq : i = last + 1 := by omega
  rw [i_eq] at after
  exact ⟨final, by rw [countLoop, runs, Option.map_some], after⟩

theorem countLoop_invariant {fuel first last : ℕ} {body : ℕ → State → Option State}
    {initial final : State} (invariant : State → Prop)
    (step : ∀ i state next, invariant state → body i state = some next → invariant next)
    (holds : invariant initial)
    (returns : countLoop range fuel first last body initial = some final) : invariant final := by
  rcases Option.map_eq_some_iff.mp returns with ⟨reached, runs, rfl⟩
  refine whileLoop_invariant (fun state : ℕ × State => invariant state.2) ?_ holds runs
  intro state next current _ steps
  rcases Option.map_eq_some_iff.mp steps with ⟨result, body_eq, rfl⟩
  exact step _ _ _ current body_eq

theorem countLoop_of_lt {fuel first last : ℕ} {body : ℕ → State → Option State}
    {initial final : State} (last_lt : last < first)
    (returns : countLoop range fuel first last body initial = some final) : final = initial := by
  rcases Option.map_eq_some_iff.mp returns with ⟨reached, runs, rfl⟩
  cases fuel with
  | zero => exact absurd runs (by simp)
  | succ fuel =>
      rw [whileLoop, if_neg (by simpa using last_lt)] at runs
      rw [← Option.some.inj runs]

/-- If the last value is the largest one, then the loop never ends. -/
theorem countLoop_eq_none {fuel first last : ℕ} {body : ℕ → State → Option State} {initial : State}
    (first_lt : first < range) (largest : last + 1 = range) :
    countLoop range fuel first last body initial = none := by
  have step : ∀ state next : ℕ × State, state.1 < range →
      (body state.1 state.2).map (fun next => ((state.1 + 1) % range, next)) = some next →
      next.1 < range := by
    intro state next _ steps
    rcases Option.map_eq_some_iff.mp steps with ⟨result, _, rfl⟩
    exact Nat.mod_lt _ (by omega)
  rw [countLoop, whileLoop_eq_none _ (fun state inside => decide_eq_true (by omega)) step fuel
    first_lt]
  rfl

/-- `for (i = 0; i < count; i++)` with a counter that takes its values below `range`. -/
def counterLoop (range fuel count : ℕ) (body : ℕ → State → Option State) (initial : State) :
    Option State :=
  (whileLoop (fun state : ℕ × State => state.1 < count)
    (fun state => (body state.1 state.2).map fun next => ((state.1 + 1) % range, next))
    fuel (0, initial)).map Prod.snd

theorem counterLoop_total (range fuel count : ℕ) (body : ℕ → State → Option State)
    (initial : State) (invariant : ℕ → State → Prop) (holds : invariant 0 initial)
    (step : ∀ i state, i < count → invariant i state →
      ∃ next, body i state = some next ∧ invariant (i + 1) next)
    (inside : count < range) (enough : count < fuel) :
    ∃ final, counterLoop range fuel count body initial = some final ∧ invariant count final := by
  rcases whileLoop_total (fun state : ℕ × State => state.1 < count)
    (fun state => (body state.1 state.2).map fun next => ((state.1 + 1) % range, next))
    (fun state => state.1 ≤ count ∧ invariant state.1 state.2)
    (fun state => count - state.1)
    (by
      rintro ⟨i, state⟩ ⟨_, current⟩ continues
      have i_lt : i < count := of_decide_eq_true continues
      rcases step i state i_lt current with ⟨next, steps, after⟩
      have next_i : (i + 1) % range = i + 1 := Nat.mod_eq_of_lt (by omega)
      refine ⟨(i + 1, next), ?_, ⟨i_lt, after⟩, by omega⟩
      rw [steps, Option.map_some, next_i])
    fuel (0, initial) ⟨Nat.zero_le count, holds⟩ enough with ⟨⟨i, final⟩, runs, ⟨i_le, after⟩, stops⟩
  have i_ge : ¬ i < count := of_decide_eq_false stops
  rw [(by omega : i = count)] at after
  exact ⟨final, by rw [counterLoop, runs, Option.map_some], after⟩

/-- A counter never reaches a bound outside of its range. -/
theorem counterLoop_eq_none {fuel count : ℕ} {body : ℕ → State → Option State} {initial : State}
    (range_pos : 0 < range) (range_le : range ≤ count) :
    counterLoop range fuel count body initial = none := by
  have step : ∀ state next : ℕ × State, state.1 < range →
      (body state.1 state.2).map (fun next => ((state.1 + 1) % range, next)) = some next →
      next.1 < range := by
    intro state next _ steps
    rcases Option.map_eq_some_iff.mp steps with ⟨result, _, rfl⟩
    exact Nat.mod_lt _ range_pos
  rw [counterLoop, whileLoop_eq_none _
    (fun state inside => decide_eq_true (lt_of_lt_of_le inside range_le)) step fuel range_pos]
  rfl

/-- What a loop with a counter computes, if anything, is kept as an invariant of its rounds. -/
theorem counterLoop_invariant {fuel count : ℕ} {body : ℕ → State → Option State}
    {initial final : State} (invariant : ℕ → State → Prop) (count_lt : count < range)
    (step : ∀ i state next, i < count → invariant i state → body i state = some next →
      invariant (i + 1) next)
    (holds : invariant 0 initial)
    (returns : counterLoop range fuel count body initial = some final) : invariant count final := by
  rcases Option.map_eq_some_iff.mp returns with ⟨⟨i, reached⟩, runs, rfl⟩
  have current := whileLoop_invariant (fun state : ℕ × State =>
    state.1 ≤ count ∧ invariant state.1 state.2)
    (by
      rintro ⟨i, state⟩ next ⟨_, current⟩ continues steps
      have i_lt : i < count := of_decide_eq_true continues
      rcases Option.map_eq_some_iff.mp steps with ⟨result, body_eq, rfl⟩
      rw [Nat.mod_eq_of_lt (by omega : i + 1 < range)]
      exact ⟨i_lt, step i state result i_lt current body_eq⟩)
    ⟨Nat.zero_le count, holds⟩ runs
  have stops := whileLoop_stops runs
  have i_ge : ¬ i < count := of_decide_eq_false stops
  have i_le : i ≤ count := current.1
  have i_eq : i = count := by omega
  rw [← i_eq]
  exact current.2

end Counting

end Xpir
