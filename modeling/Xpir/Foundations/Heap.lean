import Mathlib.Data.List.Nodup
import Mathlib.Logic.Function.Basic

/-!
# Heaps

A heap holds blocks of words. No address is used twice, so that a pointer to a block
that has been freed is never a pointer to another block. Freeing, reading or writing a
block that is not there has no result.
-/

namespace Xpir

structure Heap (Word : Type) where
  next : ℕ
  blocks : ℕ → Option (List Word)
  fresh : ∀ address, next ≤ address → blocks address = none

namespace Heap

variable {Word : Type}

def empty : Heap Word := ⟨0, fun _ => none, fun _ _ => rfl⟩

/-- A new block, at the address `next`. -/
def alloc (heap : Heap Word) (words : List Word) : Heap Word where
  next := heap.next + 1
  blocks := Function.update heap.blocks heap.next (some words)
  fresh address address_ge := by
    rw [Function.update_of_ne (by omega)]
    exact heap.fresh address (by omega)

/-- Replace what an address in use holds. -/
def replace (heap : Heap Word) (address : ℕ) (words : Option (List Word))
    (used : (heap.blocks address).isSome) : Heap Word where
  next := heap.next
  blocks := Function.update heap.blocks address words
  fresh other other_ge := by
    rw [Function.update_of_ne]
    · exact heap.fresh other other_ge
    · rintro rfl
      rw [heap.fresh other other_ge] at used
      exact absurd used (by simp)

def free (heap : Heap Word) (address : ℕ) : Option (Heap Word) :=
  if used : (heap.blocks address).isSome then some (heap.replace address none used) else none

def freeAll (heap : Heap Word) : List ℕ → Option (Heap Word)
  | [] => some heap
  | address :: addresses => (heap.free address).bind fun heap => heap.freeAll addresses

def read (heap : Heap Word) (address index : ℕ) : Option Word :=
  (heap.blocks address).bind fun words => words[index]?

def write (heap : Heap Word) (address index : ℕ) (word : Word) : Option (Heap Word) :=
  if used : (heap.blocks address).isSome then
    if index < ((heap.blocks address).get used).length then
      some (heap.replace address (some (((heap.blocks address).get used).set index word)) used)
    else none
  else none

variable {heap : Heap Word} {address other index : ℕ} {words : List Word} {word : Word}

theorem lt_next (used : heap.blocks address = some words) : address < heap.next := by
  by_contra outside
  rw [heap.fresh address (Nat.le_of_not_lt outside)] at used
  contradiction

@[simp]
theorem next_alloc (heap : Heap Word) (words : List Word) :
    (heap.alloc words).next = heap.next + 1 := rfl

@[simp]
theorem blocks_alloc_next (heap : Heap Word) (words : List Word) :
    (heap.alloc words).blocks heap.next = some words := Function.update_self ..

theorem blocks_alloc_of_ne (words : List Word) (apart : address ≠ heap.next) :
    (heap.alloc words).blocks address = heap.blocks address := Function.update_of_ne apart ..

/-- A block in use is not changed by a new one. -/
theorem blocks_alloc {more : List Word} (used : heap.blocks address = some words) :
    (heap.alloc more).blocks address = some words := by
  rw [blocks_alloc_of_ne more (Nat.ne_of_lt (lt_next used)), used]

theorem free_spec (used : heap.blocks address = some words) :
    ∃ after, heap.free address = some after ∧ after.next = heap.next ∧
      after.blocks address = none ∧
      ∀ other ≠ address, after.blocks other = heap.blocks other := by
  have present : (heap.blocks address).isSome := by rw [used]; rfl
  refine ⟨heap.replace address none present, ?_, rfl, Function.update_self .., ?_⟩
  · rw [free, dif_pos present]
  · intro other apart
    exact Function.update_of_ne apart ..

theorem free_eq_none (absent : heap.blocks address = none) : heap.free address = none := by
  rw [free, dif_neg (by simp [absent])]

/-- Different blocks in use can be freed one after the other. -/
theorem freeAll_spec {addresses : List ℕ} (distinct : addresses.Nodup)
    (used : ∀ address ∈ addresses, (heap.blocks address).isSome) :
    ∃ after, heap.freeAll addresses = some after ∧ after.next = heap.next ∧
      ∀ other ∉ addresses, after.blocks other = heap.blocks other := by
  induction addresses generalizing heap with
  | nil => exact ⟨heap, rfl, rfl, fun _ _ => rfl⟩
  | cons address addresses ih =>
      rcases Option.isSome_iff_exists.mp (used address List.mem_cons_self) with ⟨words, here⟩
      rcases free_spec here with ⟨middle, frees, next_eq, -, others⟩
      rcases List.nodup_cons.mp distinct with ⟨unlisted, distinct⟩
      have rest : ∀ other ∈ addresses, (middle.blocks other).isSome := by
        intro other other_mem
        rw [others other (by rintro rfl; exact unlisted other_mem)]
        exact used other (List.mem_cons_of_mem address other_mem)
      rcases ih distinct rest with ⟨after, frees_rest, next_rest, kept⟩
      refine ⟨after, by rw [freeAll, frees, Option.bind_some, frees_rest],
        next_rest.trans next_eq, ?_⟩
      intro other other_notMem
      rw [List.mem_cons, not_or] at other_notMem
      rcases other_notMem with ⟨apart, other_notMem⟩
      rw [kept other other_notMem, others other apart]

theorem read_of_block (used : heap.blocks address = some words) :
    heap.read address index = words[index]? := by
  rw [read, used, Option.bind_some]

theorem read_eq_none (absent : heap.blocks address = none) : heap.read address index = none := by
  rw [read, absent, Option.bind_none]

theorem write_spec (used : heap.blocks address = some words) (inside : index < words.length)
    (word : Word) :
    ∃ after, heap.write address index word = some after ∧ after.next = heap.next ∧
      after.blocks address = some (words.set index word) ∧
      ∀ other ≠ address, after.blocks other = heap.blocks other := by
  have present : (heap.blocks address).isSome := by rw [used]; rfl
  have get_eq : (heap.blocks address).get present = words := by simp [used]
  refine ⟨heap.replace address (some (words.set index word)) present, ?_, rfl,
    Function.update_self .., ?_⟩
  · rw [write, dif_pos present, if_pos (by rw [get_eq]; exact inside)]
    simp only [get_eq]
  · intro other apart
    exact Function.update_of_ne apart ..

end Heap

end Xpir
