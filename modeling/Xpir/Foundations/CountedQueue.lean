import Mathlib.Algebra.Group.Nat.Defs
import Mathlib.Data.List.Basic
import Mathlib.Data.List.Range
import Mathlib.Tactic.Common

/-!
# Queues with a counter

A consumer takes items by calling a pop function until it reports the end. The first part
of this file describes what a sequence of such calls returns: each of some items once and
in order, and then the end for ever. A pop function does so if an invariant leads from
each call to the next, and does not if an invariant leads to a call with another result.

The second part is a queue whose end is known from a counter. It delivers what it has been
filled with exactly if it was empty before, and the counter is the number of items.
-/

namespace Xpir

universe u v

section Pops

variable {State : Type u} {Item : Type v} (pop : State → Option (Option Item × State))

/-- What a number of calls return, if all of them return. -/
def popMany (initial : State) : ℕ → Option (List (Option Item) × State)
  | 0 => some ([], initial)
  | count + 1 => (popMany initial count).bind fun before =>
      (pop before.2).map fun popped => (before.1 ++ [popped.1], popped.2)

/-- The calls deliver the items, and then report the end. -/
def Delivers (items : List Item) (count : ℕ) (initial : State) : Prop :=
  ∃ final, popMany pop initial count = some ((List.range count).map (items[·]?), final)

variable {pop} {items : List Item} {initial : State} {count : ℕ}

theorem popMany_of_invariant (invariant : ℕ → State → Prop) (base : invariant 0 initial)
    (step : ∀ done < count, ∀ state, invariant done state →
      ∃ next, pop state = some (items[done]?, next) ∧ invariant (done + 1) next) :
    ∃ final, popMany pop initial count = some ((List.range count).map (items[·]?), final) ∧
      invariant count final := by
  induction count with
  | zero => exact ⟨initial, rfl, base⟩
  | succ count ih =>
      obtain ⟨state, runs, holds⟩ := ih fun done done_lt => step done (by omega)
      obtain ⟨next, pops, next_holds⟩ := step count (Nat.lt_succ_self count) state holds
      refine ⟨next, ?_, next_holds⟩
      rw [popMany, runs, Option.bind_some, pops, Option.map_some, List.range_succ,
        List.map_append, List.map_singleton]

theorem delivers_of_invariant (invariant : ℕ → State → Prop) (base : invariant 0 initial)
    (step : ∀ done < count, ∀ state, invariant done state →
      ∃ next, pop state = some (items[done]?, next) ∧ invariant (done + 1) next) :
    Delivers pop items count initial := by
  obtain ⟨final, runs, _⟩ := popMany_of_invariant invariant base step
  exact ⟨final, runs⟩

/-- Fewer calls deliver the first of the items. -/
theorem Delivers.of_le {fewer : ℕ} (delivers : Delivers pop items count initial)
    (le : fewer ≤ count) : Delivers pop items fewer initial := by
  induction count with
  | zero =>
      obtain rfl := Nat.le_zero.mp le
      exact delivers
  | succ count ih =>
      rcases Nat.le_succ_iff.mp le with before | rfl
      · apply ih _ before
        obtain ⟨final, runs⟩ := delivers
        rw [popMany, List.range_succ, List.map_append] at runs
        obtain ⟨⟨outputs, state⟩, earlier, last⟩ := Option.bind_eq_some_iff.mp runs
        obtain ⟨popped, -, both⟩ := Option.map_eq_some_iff.mp last
        obtain ⟨outputs_eq, -⟩ := Prod.mk.inj both
        rw [List.map_singleton] at outputs_eq
        obtain ⟨rfl, -⟩ := List.append_inj' outputs_eq rfl
        exact ⟨state, earlier⟩
      · exact delivers

/-- A call with another result, after calls that deliver the items before it. -/
theorem not_delivers_of_invariant (invariant : ℕ → State → Prop) (base : invariant 0 initial)
    {wrong : ℕ} (wrong_lt : wrong < count)
    (step : ∀ done < wrong, ∀ state, invariant done state →
      ∃ next, pop state = some (items[done]?, next) ∧ invariant (done + 1) next)
    (fails : ∀ state, invariant wrong state → ∀ next, pop state ≠ some (items[wrong]?, next)) :
    ¬Delivers pop items count initial := by
  intro delivers
  obtain ⟨final, runs⟩ := delivers.of_le (Nat.succ_le_of_lt wrong_lt)
  obtain ⟨state, before, holds⟩ := popMany_of_invariant invariant base step
  rw [popMany, before, Option.bind_some, List.range_succ, List.map_append] at runs
  obtain ⟨popped, pops, both⟩ := Option.map_eq_some_iff.mp runs
  obtain ⟨outputs_eq, -⟩ := Prod.mk.inj both
  rw [List.map_singleton, List.append_cancel_left_eq, List.cons.injEq] at outputs_eq
  apply fails state holds popped.2
  rw [← outputs_eq.1]
  exact pops

end Pops

/-- The largest number of items that a queue takes before it waits for the consumer. -/
def maxQueueSize : ℕ := 2 ^ 31 - 1

/-- A queue of items, each with the number of the call that has pushed it, and a counter. -/
structure CountedQueue (Item : Type u) where
  generation : ℕ
  counter : ℤ
  queue : List (ℕ × Item)

namespace CountedQueue

variable {Item : Type u} (state : CountedQueue Item)

/-- The items that the next call pushes. -/
def pushed (items : List Item) : List (ℕ × Item) := items.map fun item => (state.generation, item)

/-- All items are pushed, and the counter is set. -/
def refill (counter : ℤ) (items : List Item) : Option (CountedQueue Item) :=
  if state.queue.length + items.length ≤ maxQueueSize then
    some
      { generation := state.generation + 1
        counter := counter
        queue := state.queue ++ state.pushed items }
  else none

/-- The front item as long as the counter is not zero. An empty queue is waited for. -/
def pop : Option (Option (ℕ × Item) × CountedQueue Item) :=
  if state.counter ≠ 0 then
    match state.queue with
    | [] => none
    | item :: rest =>
        some (some item, { state with counter := state.counter - 1, queue := rest })
  else some (none, state)

/-- No item has been pushed by a later call, and the queue is not over its size. -/
structure Filled : Prop where
  earlier : ∀ item ∈ state.queue, item.1 < state.generation
  length_le : state.queue.length ≤ maxQueueSize

variable {state} {items : List Item} {counter : ℤ} {next : CountedQueue Item}

theorem Filled.refill (filled : state.Filled) (refills : state.refill counter items = some next) :
    next.Filled := by
  rw [CountedQueue.refill] at refills
  split at refills
  case isTrue room =>
    obtain rfl := Option.some.inj refills
    constructor
    · intro item item_mem
      rcases List.mem_append.mp item_mem with before | now
      · exact Nat.lt_succ_of_lt (filled.earlier item before)
      · obtain ⟨_, _, rfl⟩ := List.mem_map.mp now
        exact Nat.lt_succ_self _
    · rw [List.length_append, pushed, List.length_map]
      exact room
  case isFalse => contradiction

theorem Filled.pop {popped : Option (ℕ × Item)} (filled : state.Filled)
    (pops : state.pop = some (popped, next)) : next.Filled := by
  rw [CountedQueue.pop] at pops
  split at pops
  case isTrue =>
    split at pops
    case h_1 => contradiction
    case h_2 item rest queue_eq =>
      obtain ⟨-, rfl⟩ := Prod.mk.inj (Option.some.inj pops)
      have earlier := filled.earlier
      have length_le := filled.length_le
      rw [queue_eq] at earlier length_le
      exact ⟨fun other other_mem => earlier other (List.mem_cons_of_mem _ other_mem),
        Nat.le_of_succ_le length_le⟩
  case isFalse =>
    obtain ⟨-, rfl⟩ := Prod.mk.inj (Option.some.inj pops)
    exact filled

/-- The state after a number of calls that have returned an item each. -/
structure Popping (total : ℤ) (queue : List (ℕ × Item)) (done : ℕ) (state : CountedQueue Item) :
    Prop where
  counter : state.counter = total - done
  queue : state.queue = queue.drop done

variable {total : ℤ} {queue : List (ℕ × Item)} {done : ℕ}

theorem Popping.step (popping : Popping total queue done state) (inside : done < queue.length)
    (continues : total ≠ done) :
    ∃ next, state.pop = some (queue[done]?, next) ∧ Popping total queue (done + 1) next := by
  have counter_ne : state.counter ≠ 0 := by
    rw [popping.counter]
    omega
  rw [CountedQueue.pop, if_pos counter_ne, popping.queue, List.drop_eq_getElem_cons inside,
    List.getElem?_eq_getElem inside]
  refine ⟨_, rfl, ?_, rfl⟩
  rw [popping.counter]
  push_cast
  omega

theorem Popping.ended (popping : Popping total queue done state) (ended : total = done) :
    state.pop = some (none, state) := by
  rw [CountedQueue.pop, popping.counter, if_neg (by omega)]

/-- An item is waited for that does not come. -/
theorem Popping.waits (popping : Popping total queue done state) (outside : queue.length ≤ done)
    (continues : total ≠ done) : state.pop = none := by
  have counter_ne : state.counter ≠ 0 := by
    rw [popping.counter]
    omega
  rw [CountedQueue.pop, if_pos counter_ne, popping.queue, List.drop_eq_nil_of_le outside]

/-- With a counter for all items, they are delivered by any number of calls. -/
theorem Popping.delivers (popping : Popping queue.length queue 0 state) (count : ℕ) :
    Delivers pop queue count state := by
  refine delivers_of_invariant (fun done => Popping queue.length queue (min done queue.length))
    (by rwa [Nat.zero_min]) ?_
  intro done _ state popping
  rcases Nat.lt_or_ge done queue.length with inside | outside
  · rw [Nat.min_eq_left inside.le] at popping
    rw [Nat.min_eq_left (Nat.succ_le_of_lt inside)]
    exact popping.step inside (by omega)
  · rw [Nat.min_eq_right outside] at popping
    rw [Nat.min_eq_right (by omega), List.getElem?_eq_none outside]
    exact ⟨state, popping.ended rfl, popping⟩

/-- With another counter, the last call for an item has a wrong result, or waits. -/
theorem Popping.not_delivers (popping : Popping total queue 0 state)
    (total_ne : total ≠ queue.length) : ∃ count, ¬Delivers pop queue count state := by
  have stops : ∃ wrong ≤ queue.length, (∀ done < wrong, total ≠ done) ∧
      (total = wrong ∧ wrong < queue.length ∨ wrong = queue.length) := by
    by_cases earlier : 0 ≤ total ∧ total < queue.length
    · refine ⟨total.toNat, by omega, fun done done_lt => by omega, Or.inl ⟨by omega, by omega⟩⟩
    · exact ⟨queue.length, le_rfl, fun done done_lt => by omega, Or.inr rfl⟩
  obtain ⟨wrong, wrong_le, continues, stop⟩ := stops
  refine ⟨wrong + 1, not_delivers_of_invariant (Popping total queue) popping
    (Nat.lt_succ_self wrong) ?_ ?_⟩
  · intro done done_lt state popping
    exact popping.step (by omega) (continues done done_lt)
  · intro state popping next pops
    rcases stop with ⟨ended, inside⟩ | rfl
    · rw [popping.ended ended, List.getElem?_eq_getElem inside] at pops
      simp at pops
    · rw [popping.waits le_rfl total_ne] at pops
      contradiction

/-- An item of an earlier call comes first. -/
theorem not_delivers_leftover {item : ℕ × Item} {rest : List (ℕ × Item)}
    (queue_eq : state.queue = item :: rest) (other : queue.head? ≠ some item)
    (some_item : queue ≠ [] ∨ state.counter ≠ 0) : ¬Delivers pop queue 1 state := by
  refine not_delivers_of_invariant (fun _ reached => reached = state) rfl Nat.one_pos
    (fun done done_lt => absurd done_lt (Nat.not_lt_zero done)) ?_
  rintro _ rfl next pops
  rw [CountedQueue.pop] at pops
  split at pops
  case isTrue =>
    rw [queue_eq, Option.some.injEq, Prod.mk.injEq] at pops
    rw [List.head?_eq_getElem?] at other
    exact other pops.1.symm
  case isFalse zero =>
    rw [Option.some.injEq, Prod.mk.injEq] at pops
    rcases some_item with nonempty | counter_ne
    · rw [eq_comm, List.getElem?_eq_none_iff] at pops
      exact nonempty (List.eq_nil_of_length_eq_zero (Nat.le_zero.mp pops.1))
    · exact zero counter_ne

/--
A filled queue delivers its items exactly if there is room for them, the counter is their
number, and no earlier items are left.
-/
theorem refill_delivers_iff (filled : state.Filled) (counter : ℤ) (items : List Item) :
    (∃ next, state.refill counter items = some next ∧
        ∀ count, Delivers pop (state.pushed items) count next) ↔
      items.length ≤ maxQueueSize ∧ counter = items.length ∧ (state.queue = [] ∨ items = []) := by
  have length_eq : (state.pushed items).length = items.length := List.length_map _
  constructor
  · rintro ⟨next, refills, delivers⟩
    rw [refill] at refills
    split at refills
    case isFalse => contradiction
    case isTrue room =>
      obtain rfl := Option.some.inj refills
      refine ⟨by omega, ?_⟩
      rcases queue_eq : state.queue with _ | ⟨item, rest⟩
      · refine ⟨?_, Or.inl rfl⟩
        by_contra counter_ne
        rw [queue_eq, List.nil_append] at delivers
        have popping : Popping counter (state.pushed items) 0
            { generation := state.generation + 1, counter := counter,
              queue := state.pushed items } := ⟨by simp, rfl⟩
        obtain ⟨count, fails⟩ := popping.not_delivers (by rwa [length_eq])
        exact fails (delivers count)
      · rw [queue_eq] at delivers
        have other : (state.pushed items).head? ≠ some item := by
          intro same
          have earlier := filled.earlier item (by rw [queue_eq]; exact List.mem_cons_self)
          obtain ⟨_, _, rfl⟩ := List.mem_map.mp (List.mem_of_head? same)
          exact lt_irrefl _ earlier
        rcases items with _ | ⟨first, others⟩
        · refine ⟨?_, Or.inr rfl⟩
          by_contra counter_ne
          exact not_delivers_leftover rfl other (Or.inr counter_ne) (delivers 1)
        · exact absurd (delivers 1) (not_delivers_leftover rfl other (Or.inl (by simp [pushed])))
  · rintro ⟨length_le, rfl, empty⟩
    have room : state.queue.length + items.length ≤ maxQueueSize := by
      rcases empty with queue_eq | rfl
      · rwa [queue_eq, List.length_nil, Nat.zero_add]
      · exact filled.length_le
    refine ⟨_, by rw [refill, if_pos room], ?_⟩
    rcases empty with queue_eq | rfl
    · apply Popping.delivers
      refine ⟨by rw [length_eq]; simp, by rw [queue_eq]; rfl⟩
    · intro count
      refine delivers_of_invariant (fun _ reached => reached.counter = 0) rfl ?_
      intro done _ reached zero
      refine ⟨reached, ?_, zero⟩
      rw [CountedQueue.pop, if_neg (not_not.mpr zero)]
      rfl

end CountedQueue

end Xpir
