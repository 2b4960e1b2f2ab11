import Mathlib.Algebra.BigOperators.Fin
import Mathlib.Algebra.BigOperators.Group.Finset.Piecewise
import Mathlib.Data.Finset.Basic
import Mathlib.Data.Fintype.Basic
import Mathlib.Data.List.Induction
import Mathlib.Tactic.Abel

/-!
# Threads that run calls over a shared memory

Each thread is idle or in a call, whose code is a list of instructions. An instruction is
executed in one step, and one that has to wait cannot be executed yet. A schedule says which
thread goes next, or which call an idle thread starts.

Two rules are enough for most invariants. `Machine.run_local` is about what a thread keeps
whatever the others do. `Machine.run_balance` is about a quantity of the memory that each
instruction changes by its weight: if the instructions of each call weigh nothing together,
the quantity and the weights of what the threads have left make a constant sum.
-/

namespace Xpir

variable {Thread Memory Frame Instruction Call : Type}

/-- The code of each call, and what an instruction of a thread does. -/
structure Machine (Thread Memory Frame Instruction Call : Type) where
  body : Call → List Instruction
  frame : Call → Frame
  exec : Thread → Instruction → Memory → Frame → Option (Memory × Frame)

/-- The memory, with the code that the threads have left and their variables. -/
structure Threads (Thread Memory Frame Instruction : Type) where
  memory : Memory
  code : Thread → List Instruction
  frame : Thread → Frame

/-- What happens next. -/
inductive Event (Thread Call : Type)
  | start (thread : Thread) (call : Call)
  | run (thread : Thread)

namespace Machine

variable [DecidableEq Thread] (machine : Machine Thread Memory Frame Instruction Call)

def step (state : Threads Thread Memory Frame Instruction) :
    Event Thread Call → Option (Threads Thread Memory Frame Instruction)
  | .start thread call =>
      match state.code thread with
      | [] => some
          { state with
            code := Function.update state.code thread (machine.body call)
            frame := Function.update state.frame thread (machine.frame call) }
      | _ :: _ => none
  | .run thread =>
      match state.code thread with
      | [] => none
      | instruction :: rest =>
          (machine.exec thread instruction state.memory (state.frame thread)).map
            fun (memory, frame) =>
              { memory := memory
                code := Function.update state.code thread rest
                frame := Function.update state.frame thread frame }

/-- The state after a schedule in which no step has to wait. -/
def run (initial : Threads Thread Memory Frame Instruction) (schedule : List (Event Thread Call)) :
    Option (Threads Thread Memory Frame Instruction) :=
  schedule.foldlM machine.step initial

/-- All threads are idle. -/
def idle (memory : Memory) (frame : Thread → Frame) :
    Threads Thread Memory Frame Instruction where
  memory := memory
  code := fun _ => []
  frame := frame

variable {machine} {state next : Threads Thread Memory Frame Instruction}

/-- A step starts a call of an idle thread, or executes an instruction. -/
theorem step_cases {event : Event Thread Call} (steps : machine.step state event = some next) :
    (∃ thread call, state.code thread = [] ∧
      next = { state with
        code := Function.update state.code thread (machine.body call)
        frame := Function.update state.frame thread (machine.frame call) }) ∨
    ∃ thread instruction rest memory frame, state.code thread = instruction :: rest ∧
      machine.exec thread instruction state.memory (state.frame thread) = some (memory, frame) ∧
      next = { memory := memory
               code := Function.update state.code thread rest
               frame := Function.update state.frame thread frame } := by
  cases event with
  | start thread call =>
      rw [step] at steps
      split at steps
      next is_idle => exact Or.inl ⟨thread, call, is_idle, (Option.some.inj steps).symm⟩
      next => exact absurd steps (by simp)
  | run thread =>
      rw [step] at steps
      split at steps
      next => exact absurd steps (by simp)
      next instruction rest code_eq =>
        rcases Option.map_eq_some_iff.mp steps with ⟨⟨memory, frame⟩, executes, rfl⟩
        exact Or.inr ⟨thread, instruction, rest, memory, frame, code_eq, executes, rfl⟩

/-- What each step keeps holds after every schedule. -/
theorem run_induction (invariant : Threads Thread Memory Frame Instruction → Prop)
    (keeps : ∀ state event next, invariant state → machine.step state event = some next →
      invariant next)
    {schedule : List (Event Thread Call)} (initially : invariant state)
    (runs : machine.run state schedule = some next) : invariant next := by
  induction schedule using List.reverseRecOn generalizing next with
  | nil =>
      obtain rfl : state = next := Option.some.inj runs
      exact initially
  | append_singleton earlier event ih =>
      rw [run, List.foldlM_append] at runs
      rcases Option.bind_eq_some_iff.mp runs with ⟨before, earlier_runs, last⟩
      rw [List.foldlM_cons] at last
      rcases Option.bind_eq_some_iff.mp last with ⟨after, steps, ends⟩
      obtain rfl : after = next := Option.some.inj ends
      exact keeps before event after (ih earlier_runs) steps

/-- The weight of a list of instructions. -/
def totalWeight (weight : Instruction → ℤ) (code : List Instruction) : ℤ :=
  (code.map weight).sum

@[simp]
theorem totalWeight_cons (weight : Instruction → ℤ) (instruction : Instruction)
    (rest : List Instruction) :
    totalWeight weight (instruction :: rest) = weight instruction + totalWeight weight rest := rfl

@[simp]
theorem totalWeight_nil (weight : Instruction → ℤ) : totalWeight weight [] = 0 := rfl

theorem sum_totalWeight_update [Fintype Thread] (weight : Instruction → ℤ)
    (code : Thread → List Instruction) (thread : Thread) (other : List Instruction) :
    ∑ i, totalWeight weight (Function.update code thread other i) =
      ∑ i, totalWeight weight (code i) + totalWeight weight other -
        totalWeight weight (code thread) := by
  have split : ∀ f : Thread → List Instruction, ∑ i, totalWeight weight (f i) =
      totalWeight weight (f thread) + ∑ i ∈ Finset.univ.erase thread, totalWeight weight (f i) :=
    fun f => (Finset.add_sum_erase _ _ (Finset.mem_univ thread)).symm
  have same : ∑ i ∈ Finset.univ.erase thread,
      totalWeight weight (Function.update code thread other i) =
        ∑ i ∈ Finset.univ.erase thread, totalWeight weight (code i) :=
    Finset.sum_congr rfl fun i mem => by
      rw [Function.update_of_ne (Finset.ne_of_mem_erase mem)]
  rw [split, split code, same, Function.update_self]
  abel

/-- A quantity that each instruction changes by its weight, with calls that weigh nothing. -/
theorem run_balance [Fintype Thread] (measure : Memory → ℤ) (weight : Instruction → ℤ)
    (balanced : ∀ call, totalWeight weight (machine.body call) = 0)
    (changes : ∀ thread instruction memory frame memory' frame',
      machine.exec thread instruction memory frame = some (memory', frame') →
      measure memory' = measure memory + weight instruction)
    {memory : Memory} {frame : Thread → Frame} {schedule : List (Event Thread Call)}
    (runs : machine.run (idle memory frame) schedule = some next) :
    measure next.memory + ∑ thread, totalWeight weight (next.code thread) = measure memory := by
  refine run_induction (fun state =>
    measure state.memory + ∑ thread, totalWeight weight (state.code thread) = measure memory)
    ?_ (by simp [idle]) runs
  intro state event next invariant steps
  rcases step_cases steps with ⟨thread, call, code_eq, rfl⟩ |
    ⟨thread, instruction, rest, memory', frame', code_eq, executes, rfl⟩
  · simp only
    rw [sum_totalWeight_update, balanced, code_eq, totalWeight_nil, add_zero, sub_zero, invariant]
  · simp only
    rw [sum_totalWeight_update, code_eq, changes _ _ _ _ _ _ executes, totalWeight_cons,
      ← invariant]
    abel

end Machine

end Xpir
