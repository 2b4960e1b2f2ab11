import Mathlib.Algebra.Order.BigOperators.Group.Finset
import Mathlib.Data.Int.Order.Basic
import Xpir.Foundations.Interleaving

/-!
# The queue shared by producers and consumers

Two semaphores count the elements stored and the space left, and a mutex protects the
container. A call of `front` takes an element's token and gives it back.

Tokens are in flight while a call is between its semaphores and the container, so that
neither semaphore tells the number of elements. What is left of the code of all calls makes
up the difference, and no part of a call weighs less than nothing: the container is as full
as the first semaphore says or fuller, and has as much space as the second one says or more.
-/

namespace Xpir

namespace SharedQueue

variable {Thread T : Type}

inductive Semaphore
  | numStored
  | numSpace
  deriving DecidableEq

inductive Instruction
  | wait (semaphore : Semaphore)
  | post (semaphore : Semaphore)
  | lock
  | unlock
  | dataPush
  | dataFront
  | dataPop
  | dataSize
  | dataEmpty
  deriving DecidableEq

/-- The calls of the interface. -/
inductive Call (T : Type)
  | push (item : T)
  | front
  | popFront
  | pop
  | empty
  | size

/-- The parameter of a call, and its local variables once they have a value. -/
structure Frame (T : Type) where
  item : Option T
  pt : Option T
  s : Option ℕ
  b : Option Bool

/-- The element that has been removed, with the one that the call returns. -/
structure Removal (T : Type) where
  element : T
  returned : Option T

/--
The members of the queue. The elements are also recorded in the order in which their pushes
took the mutex, and the removals in the order in which they were made.
-/
structure Memory (Thread T : Type) where
  count : Semaphore → ℕ
  mutex : Option Thread
  data : List T
  pushed : List T
  removed : List (Removal T)

def Call.body : Call T → List Instruction
  | .push _ => [.wait .numSpace, .lock, .dataPush, .unlock, .post .numStored]
  | .front => [.wait .numStored, .lock, .dataFront, .unlock, .post .numStored]
  | .popFront => [.wait .numStored, .lock, .dataFront, .dataPop, .unlock, .post .numSpace]
  | .pop => [.wait .numStored, .lock, .dataPop, .unlock, .post .numSpace]
  | .empty => [.lock, .dataEmpty, .unlock]
  | .size => [.lock, .dataSize, .unlock]

def Call.item : Call T → Option T
  | .push item => some item
  | _ => none

def Call.frame (call : Call T) : Frame T where
  item := call.item
  pt := none
  s := none
  b := none

/--
A thread waits for a semaphore that is zero and for a mutex that is taken. Of an empty
container there is no front, and nothing can be removed from it.
-/
def exec [DecidableEq Thread] (thread : Thread) (instruction : Instruction)
    (memory : Memory Thread T) (frame : Frame T) : Option (Memory Thread T × Frame T) :=
  match instruction with
  | .wait semaphore =>
      if 0 < memory.count semaphore then
        some ({ memory with
          count := Function.update memory.count semaphore (memory.count semaphore - 1) }, frame)
      else none
  | .post semaphore =>
      some ({ memory with
        count := Function.update memory.count semaphore (memory.count semaphore + 1) }, frame)
  | .lock =>
      match memory.mutex with
      | none => some ({ memory with
          mutex := some thread
          pushed := memory.pushed ++ frame.item.toList }, frame)
      | some _ => none
  | .unlock =>
      if memory.mutex = some thread then some ({ memory with mutex := none }, frame) else none
  | .dataPush =>
      frame.item.map fun item => ({ memory with data := memory.data ++ [item] }, frame)
  | .dataFront =>
      memory.data.head?.map fun element => (memory, { frame with pt := some element })
  | .dataPop =>
      match memory.data with
      | [] => none
      | element :: rest => some ({ memory with
          data := rest
          removed := memory.removed ++ [{ element := element, returned := frame.pt }] }, frame)
  | .dataSize => some (memory, { frame with s := some memory.data.length })
  | .dataEmpty => some (memory, { frame with b := some memory.data.isEmpty })

def sharedQueue [DecidableEq Thread] :
    Machine Thread (Memory Thread T) (Frame T) Instruction (Call T) where
  body := Call.body
  frame := Call.frame
  exec := exec

/-- A new queue, before any thread has called it. -/
def initial (maxSize : ℕ) : Threads Thread (Memory Thread T) (Frame T) Instruction :=
  Machine.idle
    { count := fun semaphore => match semaphore with
        | .numStored => 0
        | .numSpace => maxSize
      mutex := none
      data := []
      pushed := []
      removed := [] }
    fun _ => { item := none, pt := none, s := none, b := none }

/-- The instructions that need an element. -/
def Instruction.NeedsElement (instruction : Instruction) : Prop :=
  instruction = .dataFront ∨ instruction = .dataPop

/-- A bounded queue that is first in, first out. -/
structure BoundedFifo (maxSize : ℕ)
    (state : Threads Thread (Memory Thread T) (Frame T) Instruction) : Prop where
  fifo : state.memory.removed.map Removal.element <+: state.memory.pushed
  /-- All elements are still there but the ones removed, and one that is just being pushed. -/
  conserved : ∃ pushing, state.memory.pushed =
    state.memory.removed.map Removal.element ++ state.memory.data ++ pushing ∧
      (pushing = [] ∨ ∃ thread rest, state.code thread = .dataPush :: rest ∧
        pushing = (state.frame thread).item.toList)
  returned : ∀ removal ∈ state.memory.removed,
    removal.returned = none ∨ removal.returned = some removal.element
  bounded : state.memory.data.length ≤ maxSize
  nonempty : ∀ thread instruction rest, state.code thread = instruction :: rest →
    instruction.NeedsElement → state.memory.data ≠ []
  owned : ∀ thread rest, state.code thread = .unlock :: rest → state.memory.mutex = some thread

section Code

/-- The instructions that only the owner of the mutex executes. -/
def Instruction.isProtected : Instruction → Bool
  | .wait _ | .post _ | .lock => false
  | _ => true

def inSection : List Instruction → Bool
  | [] => false
  | instruction :: _ => instruction.isProtected

/-- The next instruction is a push to the container. -/
def pushes : List Instruction → Bool
  | .dataPush :: _ => true
  | _ => false

/-- The next instruction is a removal from the container. -/
def removes : List Instruction → Bool
  | .dataPop :: _ => true
  | _ => false

/--
The mutex is held from its lock to its unlock; a push to the container comes right after
the lock, a removal after the lock or after a read, and no lock after a read.
-/
def wellOrdered (isPush : Bool) : List Instruction → Bool
  | [] => true
  | instruction :: rest =>
      inSection rest == (instruction == .lock ||
          instruction.isProtected && instruction != .unlock) &&
        pushes rest == (instruction == .lock && isPush) &&
        (!removes rest || instruction == .lock || instruction == .dataFront) &&
        (instruction != .dataFront || !rest.contains .lock)

theorem Call.wellOrdered (call : Call T) :
    call.body.tails.all (SharedQueue.wellOrdered call.item.isSome) = true := by
  cases call <;> rfl

/-- Nothing is in front of a call that is protected. -/
theorem Call.body_outside (call : Call T) :
    inSection call.body = false ∧ pushes call.body = false ∧ removes call.body = false := by
  cases call <;> exact ⟨rfl, rfl, rfl⟩

theorem exists_of_pushes : ∀ {code : List Instruction}, pushes code = true →
    ∃ rest, code = .dataPush :: rest
  | .dataPush :: rest, _ => ⟨rest, rfl⟩

theorem inSection_of_removes : ∀ {code : List Instruction}, removes code = true →
    inSection code = true
  | .dataPop :: _, _ => rfl

end Code

section Order

variable {state : Threads Thread (Memory Thread T) (Frame T) Instruction}

/-- The element that the owner of the mutex is about to push. -/
def pending (state : Threads Thread (Memory Thread T) (Frame T) Instruction) : List T :=
  match state.memory.mutex with
  | none => []
  | some thread =>
      if pushes (state.code thread) then (state.frame thread).item.toList else []

/-- The mutex and the order of the elements. -/
structure Ordered (state : Threads Thread (Memory Thread T) (Frame T) Instruction) : Prop where
  runs : ∀ thread, ∃ call : Call T, state.code thread ∈ call.body.tails ∧
    (state.frame thread).item = call.item
  owner : ∀ thread, inSection (state.code thread) = true ↔ state.memory.mutex = some thread
  conserved : state.memory.pushed =
    state.memory.removed.map Removal.element ++ state.memory.data ++ pending state
  returned : ∀ removal ∈ state.memory.removed,
    removal.returned = none ∨ removal.returned = some removal.element
  unread : ∀ thread, .lock ∈ state.code thread → (state.frame thread).pt = none
  read : ∀ thread, removes (state.code thread) = true →
    (state.frame thread).pt = none ∨ (state.frame thread).pt = state.memory.data.head?

theorem ordered_initial (maxSize : ℕ) :
    Ordered (initial maxSize : Threads Thread (Memory Thread T) (Frame T) Instruction) where
  runs := fun _ => ⟨.pop, (List.mem_tails _ _).mpr List.nil_suffix, rfl⟩
  owner := fun _ => by simp [initial, Machine.idle, inSection]
  conserved := rfl
  returned := fun _ mem => absurd mem List.not_mem_nil
  unread := fun _ _ => rfl
  read := fun _ remove => absurd remove (by simp [initial, Machine.idle, removes])

/-- A call that starts does not touch the memory. -/
theorem Ordered.start [DecidableEq Thread] (ordered : Ordered state) {thread : Thread} (call : Call T)
    (code_eq : state.code thread = []) :
    Ordered { state with
      code := Function.update state.code thread call.body
      frame := Function.update state.frame thread call.frame } := by
  have outside : state.memory.mutex ≠ some thread := by
    rw [ne_eq, ← ordered.owner, code_eq]
    decide
  rcases call.body_outside with ⟨no_section, no_push, no_removal⟩
  refine ⟨fun other => ?_, fun other => ?_, ?_, ordered.returned, fun other => ?_,
    fun other => ?_⟩
  · rcases eq_or_ne other thread with rfl | differs
    · exact ⟨call, by simp, by simp [Call.frame]⟩
    · simpa [differs] using ordered.runs other
  · rcases eq_or_ne other thread with rfl | differs
    · simp [no_section, outside]
    · simpa [differs] using ordered.owner other
  · rw [ordered.conserved, pending, pending]
    cases mutex_eq : state.memory.mutex with
    | none => rfl
    | some holder =>
        have differs : holder ≠ thread := fun same => outside (same ▸ mutex_eq)
        simp [differs]
  · rcases eq_or_ne other thread with rfl | differs
    · simp [Call.frame]
    · simpa [differs] using ordered.unread other
  · rcases eq_or_ne other thread with rfl | differs
    · simp [no_removal]
    · simpa [differs] using ordered.read other

/-- What the code of a thread says about its next instruction. -/
theorem Ordered.next (ordered : Ordered state) {thread : Thread} {instruction : Instruction}
    {rest : List Instruction} (code_eq : state.code thread = instruction :: rest) :
    (∃ call : Call T, rest ∈ call.body.tails ∧ (state.frame thread).item = call.item) ∧
      (inSection rest = true ↔
        instruction = .lock ∨ instruction.isProtected = true ∧ instruction ≠ .unlock) ∧
      (pushes rest = true ↔ instruction = .lock ∧ (state.frame thread).item.isSome = true) ∧
      (removes rest = true → instruction = .lock ∨ instruction = .dataFront) ∧
      (.lock ∈ rest → instruction ≠ .dataFront) := by
  rcases ordered.runs thread with ⟨call, code_mem, item_eq⟩
  rw [code_eq] at code_mem
  have follows := List.all_eq_true.mp call.wellOrdered _ code_mem
  simp only [SharedQueue.wellOrdered, Bool.and_eq_true, beq_iff_eq, Bool.or_eq_true,
    Bool.not_eq_true'] at follows
  refine ⟨⟨call, ?_, item_eq⟩, ?_, ?_, ?_, ?_⟩
  · exact (List.mem_tails _ _).mpr ((List.suffix_cons instruction rest).trans ((List.mem_tails _ _).mp code_mem))
  · rw [follows.1.1.1]
    simp
  · rw [follows.1.1.2, item_eq]
    simp
  · intro remove
    simpa [remove] using follows.1.2
  · intro locks
    simpa [locks] using follows.2

/-- What an instruction does to the number of elements. -/
def Instruction.dataWeight : Instruction → ℤ
  | .dataPush => 1
  | .dataPop => -1
  | _ => 0

def Instruction.semaphoreWeight (semaphore : Semaphore) : Instruction → ℤ
  | .wait other => if other = semaphore then -1 else 0
  | .post other => if other = semaphore then 1 else 0
  | _ => 0

/-- What an instruction does to the semaphores, to the mutex and to the elements. -/
structure Effect (thread : Thread) (instruction : Instruction) (memory memory' : Memory Thread T)
    (frame frame' : Frame T) : Prop where
  item_eq : frame'.item = frame.item
  count : (∃ semaphore, instruction = .wait semaphore ∧ 0 < memory.count semaphore ∧
      memory'.count = Function.update memory.count semaphore (memory.count semaphore - 1)) ∨
    (∃ semaphore, instruction = .post semaphore ∧
      memory'.count = Function.update memory.count semaphore (memory.count semaphore + 1)) ∨
    (∀ semaphore, instruction.semaphoreWeight semaphore = 0) ∧ memory'.count = memory.count
  mutex : instruction = .lock ∧ memory.mutex = none ∧ memory'.mutex = some thread ∨
    instruction = .unlock ∧ memory.mutex = some thread ∧ memory'.mutex = none ∨
    instruction ≠ .lock ∧ instruction ≠ .unlock ∧ memory'.mutex = memory.mutex
  pushed : memory'.pushed =
    memory.pushed ++ if instruction = .lock then frame.item.toList else []
  elements : (∃ item, instruction = .dataPush ∧ frame.item = some item ∧
      memory'.data = memory.data ++ [item] ∧ memory'.removed = memory.removed) ∨
    (∃ element, instruction = .dataPop ∧ memory.data = element :: memory'.data ∧
      memory'.removed = memory.removed ++ [{ element := element, returned := frame.pt }]) ∨
    instruction ≠ .dataPush ∧ instruction ≠ .dataPop ∧ memory'.data = memory.data ∧
      memory'.removed = memory.removed
  pt : instruction ≠ .dataFront ∧ frame'.pt = frame.pt ∨
    instruction = .dataFront ∧ frame'.pt = memory.data.head?

theorem exec_effect [DecidableEq Thread] {thread : Thread} {instruction : Instruction}
    {memory memory' : Memory Thread T} {frame frame' : Frame T}
    (executes : exec thread instruction memory frame = some (memory', frame')) :
    Effect thread instruction memory memory' frame frame' := by
  cases instruction with
  | wait semaphore =>
      simp only [exec, Option.ite_none_right_eq_some, Option.some.injEq, Prod.mk.injEq] at executes
      rcases executes with ⟨available, rfl, rfl⟩
      constructor <;> simp [Instruction.semaphoreWeight, available]
  | lock =>
      cases mutex_eq : memory.mutex with
      | none =>
          simp only [exec, mutex_eq, Option.some.injEq, Prod.mk.injEq] at executes
          rcases executes with ⟨rfl, rfl⟩
          constructor <;> simp [Instruction.semaphoreWeight, mutex_eq]
      | some holder => simp [exec, mutex_eq] at executes
  | unlock =>
      simp only [exec, Option.ite_none_right_eq_some, Option.some.injEq, Prod.mk.injEq] at executes
      rcases executes with ⟨held, rfl, rfl⟩
      constructor <;> simp [Instruction.semaphoreWeight, held]
  | dataPush =>
      rcases Option.map_eq_some_iff.mp executes with ⟨item, item_eq, same⟩
      rcases Prod.mk.inj same with ⟨rfl, rfl⟩
      constructor <;> simp [Instruction.semaphoreWeight, item_eq]
  | dataFront =>
      rcases Option.map_eq_some_iff.mp executes with ⟨element, first, same⟩
      rcases Prod.mk.inj same with ⟨rfl, rfl⟩
      constructor <;> simp [Instruction.semaphoreWeight, first]
  | dataPop =>
      cases data_eq : memory.data with
      | nil => simp [exec, data_eq] at executes
      | cons element others =>
          simp only [exec, data_eq, Option.some.injEq, Prod.mk.injEq] at executes
          rcases executes with ⟨rfl, rfl⟩
          constructor <;> simp [Instruction.semaphoreWeight, data_eq]
  | post semaphore =>
      rcases Prod.mk.inj (Option.some.inj executes) with ⟨rfl, rfl⟩
      constructor <;> simp [Instruction.semaphoreWeight]
  | dataSize =>
      rcases Prod.mk.inj (Option.some.inj executes) with ⟨rfl, rfl⟩
      constructor <;> simp [Instruction.semaphoreWeight]
  | dataEmpty =>
      rcases Prod.mk.inj (Option.some.inj executes) with ⟨rfl, rfl⟩
      constructor <;> simp [Instruction.semaphoreWeight]

/-- An element is pending from the lock of its push to its push to the container. -/
theorem Ordered.conserved_run [DecidableEq Thread] (ordered : Ordered state) {thread : Thread}
    {instruction : Instruction} {rest : List Instruction} {memory : Memory Thread T}
    {frame : Frame T} (code_eq : state.code thread = instruction :: rest)
    (effect : Effect thread instruction state.memory memory (state.frame thread) frame) :
    memory.pushed = memory.removed.map Removal.element ++ memory.data ++
      pending { memory := memory
                code := Function.update state.code thread rest
                frame := Function.update state.frame thread frame } := by
  rcases ordered.next code_eq with ⟨_, _, push_iff, _⟩
  have holds : instruction.isProtected = true ↔ state.memory.mutex = some thread := by
    rw [← ordered.owner, code_eq]
    rfl
  have conserved := ordered.conserved
  rcases effect.mutex with ⟨rfl, before, after⟩ | ⟨rfl, before, after⟩ |
    ⟨not_lock, not_unlock, after⟩
  · have pushes_eq : (if pushes rest = true then (state.frame thread).item.toList else []) =
        (state.frame thread).item.toList := by
      simp only [push_iff, true_and]
      cases (state.frame thread).item <;> simp
    rcases effect.elements with ⟨_, other, _⟩ | ⟨_, other, _⟩ | ⟨_, _, data_eq, removed_eq⟩
    · exact absurd other (by decide)
    · exact absurd other (by decide)
    · rw [pending, before] at conserved
      simp only [pending, after, Function.update_self, effect.item_eq, pushes_eq]
      rw [effect.pushed, if_pos rfl, conserved, data_eq, removed_eq, List.append_nil]
  · rcases effect.elements with ⟨_, other, _⟩ | ⟨_, other, _⟩ | ⟨_, _, data_eq, removed_eq⟩
    · exact absurd other (by decide)
    · exact absurd other (by decide)
    · simp only [pending, before, code_eq, pushes] at conserved
      simp only [pending, after]
      rw [effect.pushed, conserved, data_eq, removed_eq]
      simp
  · have no_push : pushes rest = false := by
      rw [← Bool.not_eq_true, push_iff]
      exact fun lock => not_lock lock.1
    rw [effect.pushed, if_neg not_lock, List.append_nil, conserved]
    rcases effect.elements with ⟨item, rfl, item_eq, data_eq, removed_eq⟩ |
      ⟨element, rfl, data_eq, removed_eq⟩ |
      ⟨not_push, _, data_eq, removed_eq⟩
    · have owns := holds.mp rfl
      simp only [pending, after, owns, code_eq, Function.update_self, no_push, data_eq, removed_eq,
        item_eq]
      simp [pushes]
    · have owns := holds.mp rfl
      simp only [pending, after, owns, code_eq, Function.update_self, no_push, data_eq, removed_eq]
      simp [pushes]
    · rw [data_eq, removed_eq]
      congr 1
      simp only [pending, after]
      cases state.memory.mutex with
      | none => rfl
      | some holder =>
          rcases eq_or_ne holder thread with rfl | differs
          · have not_pushing : pushes (instruction :: rest) = false := by
              cases instruction <;> first | rfl | exact absurd rfl not_push
            simp only [code_eq, Function.update_self, no_push, not_pushing, Bool.false_eq_true,
              if_false]
          · simp only [Function.update_of_ne differs]

/-- Another thread is not affected by what a thread does in its own code. -/
theorem Ordered.run [DecidableEq Thread] (ordered : Ordered state) {thread : Thread}
    {instruction : Instruction} {rest : List Instruction} {memory : Memory Thread T}
    {frame : Frame T} (code_eq : state.code thread = instruction :: rest)
    (executes : exec thread instruction state.memory (state.frame thread) =
      some (memory, frame)) :
    Ordered { memory := memory
              code := Function.update state.code thread rest
              frame := Function.update state.frame thread frame } := by
  rcases ordered.next code_eq with
    ⟨⟨call, rest_mem, item_eq⟩, section_iff, _, removal_of, not_front⟩
  have effect := exec_effect executes
  have holds : instruction.isProtected = true ↔ state.memory.mutex = some thread := by
    rw [← ordered.owner, code_eq]
    rfl
  refine ⟨fun other => ?_, fun other => ?_, ordered.conserved_run code_eq effect, ?_,
    fun other => ?_, fun other => ?_⟩
  · rcases eq_or_ne other thread with rfl | differs
    · exact ⟨call, by simpa using rest_mem, by simpa using effect.item_eq.trans item_eq⟩
    · simpa [differs] using ordered.runs other
  · rcases eq_or_ne other thread with rfl | differs
    · simp only [Function.update_self, section_iff]
      rcases effect.mutex with ⟨rfl, _, after⟩ | ⟨rfl, _, after⟩ | ⟨not_lock, not_unlock, after⟩
      · simp [after]
      · simp [after]
      · simp [after, not_lock, not_unlock, holds]
    · have free : state.memory.mutex = some other ↔ memory.mutex = some other := by
        rcases effect.mutex with ⟨_, before, after⟩ | ⟨_, before, after⟩ | ⟨_, _, after⟩
        · simp [before, after, differs.symm]
        · simp [before, after, differs.symm]
        · rw [after]
      simp only [Function.update_of_ne differs, ordered.owner other, free]
  · rcases effect.elements with ⟨_, _, _, _, removed_eq⟩ | ⟨element, rfl, data_eq, removed_eq⟩ |
      ⟨_, _, _, removed_eq⟩
    · exact removed_eq ▸ ordered.returned
    · have pt_cases := ordered.read thread (by rw [code_eq]; rfl)
      rw [data_eq] at pt_cases
      intro removal mem
      rw [removed_eq] at mem
      rcases List.mem_append.mp mem with earlier | last
      · exact ordered.returned removal earlier
      · rwa [List.mem_singleton.mp last]
    · exact removed_eq ▸ ordered.returned
  · rcases eq_or_ne other thread with rfl | differs
    · simp only [Function.update_self]
      intro locks
      have unread := ordered.unread other (by rw [code_eq]; exact List.mem_cons_of_mem _ locks)
      rcases effect.pt with ⟨_, pt_eq⟩ | ⟨is_front, _⟩
      · rw [pt_eq, unread]
      · exact absurd is_front (not_front locks)
    · simpa [differs] using ordered.unread other
  · rcases eq_or_ne other thread with rfl | differs
    · simp only [Function.update_self]
      intro remove
      rcases removal_of remove with rfl | rfl
      · have unread := ordered.unread other (by rw [code_eq]; exact List.mem_cons_self)
        rcases effect.pt with ⟨_, pt_eq⟩ | ⟨is_front, _⟩
        · exact Or.inl (pt_eq.trans unread)
        · exact absurd is_front (by decide)
      · rcases effect.elements with ⟨_, is_push, _⟩ | ⟨_, is_pop, _⟩ | ⟨_, _, data_eq, _⟩
        · exact absurd is_push (by decide)
        · exact absurd is_pop (by decide)
        · rcases effect.pt with ⟨other_instruction, _⟩ | ⟨_, pt_eq⟩
          · exact absurd rfl other_instruction
          · exact Or.inr (pt_eq.trans (by rw [data_eq]))
    · simp only [Function.update_of_ne differs]
      intro remove
      have owns := (ordered.owner other).mp (inSection_of_removes remove)
      have unprotected : instruction.isProtected = false := by
        rw [← Bool.not_eq_true, holds, owns]
        exact fun same => differs (Option.some.inj same)
      rcases effect.elements with ⟨_, rfl, _⟩ | ⟨_, rfl, _⟩ | ⟨_, _, data_eq, _⟩
      · exact absurd unprotected (by decide)
      · exact absurd unprotected (by decide)
      · rw [data_eq]
        exact ordered.read other remove

end Order

section Tokens

variable {state : Threads Thread (Memory Thread T) (Frame T) Instruction}

theorem Effect.length {thread : Thread} {instruction : Instruction}
    {memory memory' : Memory Thread T} {frame frame' : Frame T}
    (effect : Effect thread instruction memory memory' frame frame') :
    (memory'.data.length : ℤ) = memory.data.length + instruction.dataWeight := by
  rcases effect.elements with ⟨item, rfl, _, data_eq, _⟩ | ⟨element, rfl, data_eq, _⟩ |
    ⟨not_push, not_pop, data_eq, _⟩
  · simp [data_eq, Instruction.dataWeight]
  · simp [data_eq, Instruction.dataWeight]
  · have weightless : instruction.dataWeight = 0 := by
      rw [Instruction.dataWeight.eq_def]
      split <;> first | rfl | contradiction
    rw [data_eq, weightless, add_zero]

theorem Effect.count_eq (semaphore : Semaphore) {thread : Thread} {instruction : Instruction}
    {memory memory' : Memory Thread T} {frame frame' : Frame T}
    (effect : Effect thread instruction memory memory' frame frame') :
    (memory'.count semaphore : ℤ) =
      memory.count semaphore + instruction.semaphoreWeight semaphore := by
  rcases effect.count with ⟨other, rfl, available, count_eq⟩ | ⟨other, rfl, count_eq⟩ |
    ⟨weightless, count_eq⟩
  · rcases eq_or_ne other semaphore with rfl | differs
    · simp only [count_eq, Function.update_self, Instruction.semaphoreWeight, if_pos]
      omega
    · simp [count_eq, Instruction.semaphoreWeight, differs, differs.symm]
  · rcases eq_or_ne other semaphore with rfl | differs
    · simp [count_eq, Instruction.semaphoreWeight]
    · simp [count_eq, Instruction.semaphoreWeight, differs, differs.symm]
  · rw [count_eq, weightless, add_zero]

/-- The weights of instructions on the elements stored but for which there is no token. -/
def storedWeight (instruction : Instruction) : ℤ :=
  instruction.semaphoreWeight .numStored - instruction.dataWeight

def spaceWeight (instruction : Instruction) : ℤ :=
  instruction.semaphoreWeight .numSpace + instruction.dataWeight

/-- A call that needs an element now has taken the token of one. -/
def hasToken (code : List Instruction) : Bool :=
  decide (0 ≤ Machine.totalWeight storedWeight code) &&
    decide (0 ≤ Machine.totalWeight spaceWeight code) &&
    (!(code.head? == some .dataFront || code.head? == some .dataPop) ||
      decide (1 ≤ Machine.totalWeight storedWeight code))

theorem Call.hasToken (call : Call T) : call.body.tails.all SharedQueue.hasToken = true := by
  cases call <;> rfl

theorem Call.balanced (call : Call T) :
    Machine.totalWeight storedWeight call.body = 0 ∧
      Machine.totalWeight spaceWeight call.body = 0 := by
  cases call <;> exact ⟨rfl, rfl⟩

theorem Ordered.hasToken (ordered : Ordered state) (thread : Thread) :
    SharedQueue.hasToken (state.code thread) = true := by
  rcases ordered.runs thread with ⟨call, code_mem, _⟩
  exact List.all_eq_true.mp call.hasToken _ code_mem

theorem Ordered.storedWeight_nonneg (ordered : Ordered state) (thread : Thread) :
    0 ≤ Machine.totalWeight storedWeight (state.code thread) := by
  have token := ordered.hasToken thread
  simp only [SharedQueue.hasToken, Bool.and_eq_true, decide_eq_true_eq] at token
  exact token.1.1

theorem Ordered.spaceWeight_nonneg (ordered : Ordered state) (thread : Thread) :
    0 ≤ Machine.totalWeight spaceWeight (state.code thread) := by
  have token := ordered.hasToken thread
  simp only [SharedQueue.hasToken, Bool.and_eq_true, decide_eq_true_eq] at token
  exact token.1.2

theorem Ordered.storedWeight_pos (ordered : Ordered state) {thread : Thread}
    {instruction : Instruction} {rest : List Instruction}
    (code_eq : state.code thread = instruction :: rest) (needs : instruction.NeedsElement) :
    1 ≤ Machine.totalWeight storedWeight (state.code thread) := by
  have token := ordered.hasToken thread
  have next : (state.code thread).head? = some .dataFront ∨
      (state.code thread).head? = some .dataPop := by
    rw [code_eq]
    exact needs.imp (congrArg some) (congrArg some)
  simp only [SharedQueue.hasToken, Bool.and_eq_true, Bool.or_eq_true, Bool.not_eq_true',
    Bool.or_eq_false_iff, beq_eq_false_iff_ne, decide_eq_true_eq] at token
  rcases token.2 with neither | positive
  · rcases next with front | pop
    · exact absurd front neither.1
    · exact absurd pop neither.2
  · exact positive

end Tokens

section Runs

variable [DecidableEq Thread] {maxSize : ℕ} {schedule : List (Event Thread (Call T))}
variable {state : Threads Thread (Memory Thread T) (Frame T) Instruction}

theorem ordered_of_run (runs : sharedQueue.run (initial maxSize) schedule = some state) :
    Ordered state := by
  refine Machine.run_induction Ordered ?_ (ordered_initial maxSize) runs
  intro before event after ordered steps
  rcases Machine.step_cases steps with ⟨thread, call, code_eq, rfl⟩ |
    ⟨thread, instruction, rest, memory, frame, code_eq, executes, rfl⟩
  · exact ordered.start call code_eq
  · exact ordered.run code_eq executes

variable [Fintype Thread]

/-- The tokens and the code that is left tell how many elements there are. -/
theorem length_of_run (runs : sharedQueue.run (initial maxSize) schedule = some state) :
    (state.memory.data.length : ℤ) = state.memory.count .numStored +
      ∑ thread, Machine.totalWeight storedWeight (state.code thread) := by
  have balance := Machine.run_balance
    (fun memory => (memory.count .numStored : ℤ) - memory.data.length) storedWeight
    (fun call => call.balanced.1) (fun _ _ _ _ _ _ executes => ?_) runs
  · simp only [List.length_nil, Nat.cast_zero, sub_zero] at balance
    omega
  · have effect := exec_effect executes
    simp only [storedWeight, effect.length, effect.count_eq .numStored]
    omega

/-- They tell how much space is left as well. -/
theorem space_of_run (runs : sharedQueue.run (initial maxSize) schedule = some state) :
    (state.memory.count .numSpace : ℤ) + state.memory.data.length +
      ∑ thread, Machine.totalWeight spaceWeight (state.code thread) = maxSize := by
  have balance := Machine.run_balance
    (fun memory => (memory.count .numSpace : ℤ) + memory.data.length) spaceWeight
    (fun call => call.balanced.2) (fun _ _ _ _ _ _ executes => ?_) runs
  · simpa [initial, Machine.idle] using balance
  · have effect := exec_effect executes
    simp only [spaceWeight, effect.length, effect.count_eq .numSpace]
    omega

end Runs

/--
Whatever the threads do and in whatever order they go on, the queue is first in, first out,
stores no more than it may, and no call takes from an empty container.
-/
theorem run_boundedFifo [DecidableEq Thread] [Fintype Thread] {maxSize : ℕ}
    {schedule : List (Event Thread (Call T))}
    {state : Threads Thread (Memory Thread T) (Frame T) Instruction}
    (runs : sharedQueue.run (initial maxSize) schedule = some state) :
    BoundedFifo maxSize state := by
  have ordered := ordered_of_run runs
  have length_eq := length_of_run runs
  have space_eq := space_of_run runs
  refine ⟨?_, ⟨pending state, ordered.conserved, ?_⟩, ordered.returned, ?_, ?_, ?_⟩
  · rw [ordered.conserved, List.append_assoc]
    exact List.prefix_append _ _
  · rw [pending]
    cases state.memory.mutex with
    | none => exact Or.inl rfl
    | some holder =>
        simp only
        split
        next push =>
          rcases exists_of_pushes push with ⟨rest, code_eq⟩
          exact Or.inr ⟨holder, rest, code_eq, rfl⟩
        next => exact Or.inl rfl
  · have weight_nonneg := Finset.sum_nonneg fun thread (_ : thread ∈ Finset.univ) =>
      ordered.spaceWeight_nonneg thread
    omega
  · intro thread instruction rest code_eq needs empty
    have weight_le := Finset.single_le_sum
      (fun other (_ : other ∈ Finset.univ) => ordered.storedWeight_nonneg other)
      (Finset.mem_univ thread)
    have weight_pos := ordered.storedWeight_pos code_eq needs
    rw [empty, List.length_nil] at length_eq
    omega
  · intro thread rest code_eq
    rw [← ordered.owner, code_eq]
    rfl

/-- An element is pushed while the call that will remove it waits. -/
def twoThreads : List (Event (Fin 2) (Call ℕ)) :=
  [.start 1 .popFront, .start 0 (.push 7), .run 0, .run 0, .run 0, .run 0, .run 0, .run 1,
    .start 0 .size, .run 1, .run 1, .run 1, .run 1, .run 0, .run 0, .run 0, .run 1]

theorem run_boundedFifo_twoThreads : ∃ state,
    sharedQueue.run (initial 1) twoThreads = some state ∧
      state.memory.removed.map Removal.element = [7] ∧ BoundedFifo 1 state :=
  ⟨_, rfl, rfl, run_boundedFifo (rfl : sharedQueue.run (initial 1) twoThreads = some _)⟩

end SharedQueue

end Xpir
