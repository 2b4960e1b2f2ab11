import Xpir.Foundations.Loop

/-!
# Computations in lockstep

Two computations that may fail run in lockstep if either both of them fail, or both have
results that are related. Lockstep is kept by sequences and loops of computations, so that
it is proved of two programs step by step.
-/

namespace Xpir

universe u v

variable {α α' β β' : Type u}

/-- Both fail, or both have results, which are related. -/
abbrev Lockstep (related : α → β → Prop) (left : Option α) (right : Option β) : Prop :=
  Option.Rel related left right

namespace Lockstep

variable {related : α → β → Prop} {next : α' → β' → Prop} {left : Option α} {right : Option β}

theorem bind {first : α → Option α'} {second : β → Option β'}
    (lockstep : Lockstep related left right)
    (steps : ∀ a b, related a b → Lockstep next (first a) (second b)) :
    Lockstep next (left.bind first) (right.bind second) := by
  cases lockstep with
  | some holds => exact steps _ _ holds
  | none => exact .none

theorem map {first : α → α'} {second : β → β'} (lockstep : Lockstep related left right)
    (results : ∀ a b, related a b → next (first a) (second b)) :
    Lockstep next (left.map first) (right.map second) := by
  cases lockstep with
  | some holds => exact .some (results _ _ holds)
  | none => exact .none

/-- Only the first result is converted. -/
theorem map_left {converted : α' → β → Prop} {first : α → α'}
    (lockstep : Lockstep related left right)
    (results : ∀ a b, related a b → converted (first a) b) :
    Lockstep converted (left.map first) right := by
  cases lockstep with
  | some holds => exact .some (results _ _ holds)
  | none => exact .none

/-- Only the second result is converted. -/
theorem map_right {converted : α → β' → Prop} {second : β → β'}
    (lockstep : Lockstep related left right)
    (results : ∀ a b, related a b → converted a (second b)) :
    Lockstep converted left (right.map second) := by
  cases lockstep with
  | some holds => exact .some (results _ _ holds)
  | none => exact .none

/-- A value that both computations read. -/
theorem bind_same {Value : Type v} (value : Option Value) {first : Value → Option α}
    {second : Value → Option β}
    (steps : ∀ read, value = some read → Lockstep related (first read) (second read)) :
    Lockstep related (value.bind first) (value.bind second) := by
  cases value with
  | none => exact .none
  | some read => exact steps read rfl

theorem map_same {Value : Type v} (value : Option Value) {first : Value → α}
    {second : Value → β}
    (results : ∀ read, value = some read → related (first read) (second read)) :
    Lockstep related (value.map first) (value.map second) := by
  cases value with
  | none => exact .none
  | some read => exact .some (results read rfl)

/-- A value that the second computation reads under another name. -/
theorem bind_map {Value : Type v} (value : Option Value) (image : Value → Value)
    {first : Value → Option α} {second : Value → Option β}
    (steps : ∀ read, value = some read → Lockstep related (first read) (second (image read))) :
    Lockstep related (value.bind first) ((value.map image).bind second) := by
  cases value with
  | none => exact .none
  | some read => exact steps read rfl

/-- A loop over a list, for a relation that every round keeps. -/
theorem foldlM {Index : Type v} {list : List Index} {first : α → Index → Option α}
    {second : β → Index → Option β} {a : α} {b : β} (start : related a b)
    (steps : ∀ a b, ∀ index ∈ list, related a b →
      Lockstep related (first a index) (second b index)) :
    Lockstep related (list.foldlM first a) (list.foldlM second b) := by
  induction list generalizing a b with
  | nil => exact .some start
  | cons index list ih =>
      rw [List.foldlM_cons, List.foldlM_cons]
      apply (steps a b index List.mem_cons_self start).bind
      intro a b holds
      exact ih holds fun a b index index_mem =>
        steps a b index (List.mem_cons_of_mem _ index_mem)

/-- A counted loop, for a relation that may depend on the finished rounds. -/
theorem foldlM_range {count : ℕ} (related : ℕ → α → β → Prop) {first : α → ℕ → Option α}
    {second : β → ℕ → Option β} {a : α} {b : β} (start : related 0 a b)
    (steps : ∀ a b, ∀ index < count, related index a b →
      Lockstep (related (index + 1)) (first a index) (second b index)) :
    Lockstep (related count) ((List.range count).foldlM first a)
      ((List.range count).foldlM second b) := by
  induction count with
  | zero => exact .some start
  | succ count ih =>
      rw [foldlM_range_succ, foldlM_range_succ]
      have earlier := ih fun a b index index_lt => steps a b index (Nat.lt_succ_of_lt index_lt)
      exact earlier.bind fun a b => steps a b count (Nat.lt_succ_self count)

/-- A counted loop against one whose state is missing once a round has failed. -/
theorem foldlM_forLoop {count : ℕ} (related : ℕ → α → β → Prop) {first : α → ℕ → Option α}
    {second : ℕ → β → Option β} {a : α} {b : β} (start : related 0 a b)
    (steps : ∀ a b, ∀ index < count, related index a b →
      Lockstep (related (index + 1)) (first a index) (second index b)) :
    Lockstep (related count) ((List.range count).foldlM first a)
      (forLoop count (fun index state => state.bind (second index)) (some b)) := by
  induction count with
  | zero => exact .some start
  | succ count ih =>
      rw [foldlM_range_succ, forLoop_succ]
      have earlier := ih fun a b index index_lt => steps a b index (Nat.lt_succ_of_lt index_lt)
      exact earlier.bind fun a b => steps a b count (Nat.lt_succ_self count)

/-- A counted loop against one that fills an array. -/
theorem foldlM_fillLoop {Value : Type u} {count : ℕ} (related : ℕ → α → (ℕ → Value) → Prop)
    {first : α → ℕ → Option α} {cell : ℕ → Option Value} {a : α} {initial : ℕ → Value}
    (start : related 0 a initial)
    (steps : ∀ a array, ∀ index < count, related index a array →
      Lockstep (fun a value => related (index + 1) a (Function.update array index value))
        (first a index) (cell index)) :
    Lockstep (related count) ((List.range count).foldlM first a)
      (fillLoop count cell initial) := by
  apply foldlM_forLoop related start
  intro a array index index_lt holds
  exact (steps a array index index_lt holds).map_right fun _ _ filled => filled

/-- A conditional loop with the same number of rounds on both sides. -/
theorem whileLoop {guard : α → Bool} {guard' : β → Bool} {first : α → Option α}
    {second : β → Option β} {a : α} {b : β} (fuel : ℕ) (start : related a b)
    (guards : ∀ a b, related a b → guard a = guard' b)
    (steps : ∀ a b, related a b → guard a = true → Lockstep related (first a) (second b)) :
    Lockstep related (Xpir.whileLoop guard first fuel a)
      (Xpir.whileLoop guard' second fuel b) := by
  induction fuel generalizing a b with
  | zero => exact .none
  | succ fuel ih =>
      rw [Xpir.whileLoop, Xpir.whileLoop, ← guards a b start]
      cases continues : guard a with
      | false => exact .some start
      | true => exact (steps a b start continues).bind fun a b holds => ih holds

/-- What else is known of the results. -/
theorem mono {weaker : α → β → Prop} (lockstep : Lockstep related left right)
    (implies : ∀ a b, left = some a → right = some b → related a b → weaker a b) :
    Lockstep weaker left right := by
  cases lockstep with
  | some holds => exact .some (implies _ _ rfl rfl holds)
  | none => exact .none

end Lockstep

end Xpir
