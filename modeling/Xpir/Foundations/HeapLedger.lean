import Mathlib.Data.Finset.Card
import Xpir.Foundations.Heap

/-!
# What a heap keeps, and how many blocks it holds

A heap is within another one if its blocks are there as well. Allocation keeps all blocks,
and freeing keeps those that are within a heap from before the freed block. The number of
blocks that are in use counts what a program has not freed yet: each allocation adds one, each
freeing takes one away. So a program leaks nothing if the number is the same at its end.
-/

namespace Xpir

/-- An entry of a list with one more entry is an entry of the list, or the one at its end. -/
theorem getElem?_concat_cases {Entry : Type} {entries : List Entry} {last entry : Entry} {i : ℕ}
    (here : (entries ++ [last])[i]? = some entry) :
    entries[i]? = some entry ∨ i = entries.length ∧ entry = last := by
  rcases Nat.lt_trichotomy i entries.length with before | rfl | beyond
  · rw [List.getElem?_append_left before] at here
    exact Or.inl here
  · rw [List.getElem?_concat_length] at here
    exact Or.inr ⟨rfl, (Option.some.inj here).symm⟩
  · rw [List.getElem?_eq_none (by simp; omega)] at here
    exact absurd here (by simp)

namespace Heap

variable {Word : Type} {heap middle after : Heap Word} {address index : ℕ} {words : List Word}
  {word : Word}

theorem ext_blocks (next_eq : heap.next = after.next)
    (blocks_eq : ∀ address, heap.blocks address = after.blocks address) : heap = after := by
  cases heap
  cases after
  congr 1
  exact funext blocks_eq

/-- A block that has just been allocated is written. -/
theorem write_alloc (inside : index < words.length) (word : Word) :
    (heap.alloc words).write heap.next index word = some (heap.alloc (words.set index word)) := by
  rcases write_spec (blocks_alloc_next heap words) inside word with
    ⟨after, writes, next_eq, here, others⟩
  rw [writes]
  congr 1
  refine ext_blocks next_eq ?_
  intro address
  by_cases new : address = heap.next
  · rw [new, here, blocks_alloc_next]
  · rw [others address new, blocks_alloc_of_ne _ new, blocks_alloc_of_ne _ new]

theorem blocks_free_of_ne (frees : heap.free address = some after) {other : ℕ}
    (apart : other ≠ address) : after.blocks other = heap.blocks other := by
  rw [free] at frees
  split at frees
  · rw [← Option.some.inj frees]
    exact Function.update_of_ne apart ..
  · exact absurd frees (by simp)

/-- Every block of the heap is in the other one, at the same address. -/
def Within (heap after : Heap Word) : Prop :=
  ∀ address words, heap.blocks address = some words → after.blocks address = some words

namespace Within

theorem refl (heap : Heap Word) : heap.Within heap := fun _ _ block => block

theorem trans (first : heap.Within middle) (second : middle.Within after) : heap.Within after :=
  fun address words block => second address words (first address words block)

theorem alloc (within : heap.Within middle) (words : List Word) :
    heap.Within (middle.alloc words) :=
  fun address block block_eq => blocks_alloc (within address block block_eq)

/-- Freeing a block that came later keeps the blocks from before. -/
theorem free (within : heap.Within middle) (frees : middle.free address = some after)
    (later : heap.next ≤ address) : heap.Within after := by
  intro other words block
  have below := lt_next block
  rw [blocks_free_of_ne frees (Nat.ne_of_lt (below.trans_le later))]
  exact within other words block

theorem read (within : heap.Within after) (reads : heap.read address index = some word) :
    after.read address index = some word := by
  rcases Option.bind_eq_some_iff.mp reads with ⟨words, block, here⟩
  rw [read_of_block (within address words block), here]

end Within

/-- The addresses of the blocks that are in use. -/
def used (heap : Heap Word) : Finset ℕ :=
  (Finset.range heap.next).filter fun address => (heap.blocks address).isSome

theorem mem_used : address ∈ heap.used ↔ (heap.blocks address).isSome := by
  rw [used, Finset.mem_filter, Finset.mem_range, and_iff_right_iff_imp]
  intro present
  rcases Option.isSome_iff_exists.mp present with ⟨words, block⟩
  exact lt_next block

/-- The number of blocks that have not been freed. -/
def live (heap : Heap Word) : ℕ := heap.used.card

theorem live_alloc (heap : Heap Word) (words : List Word) :
    (heap.alloc words).live = heap.live + 1 := by
  have unused : heap.next ∉ heap.used := by
    rw [mem_used, heap.fresh heap.next le_rfl]
    simp
  rw [live, live, ← Finset.card_insert_of_notMem unused]
  congr 1
  ext address
  rw [Finset.mem_insert, mem_used, mem_used]
  by_cases new : address = heap.next
  · rw [new, blocks_alloc_next]
    simp
  · rw [blocks_alloc_of_ne _ new]
    simp [new]

theorem live_free (frees : heap.free address = some after) : after.live + 1 = heap.live := by
  have freed : (heap.blocks address).isSome ∧ after.blocks address = none := by
    rw [free] at frees
    split at frees
    · rename_i present
      rw [← Option.some.inj frees]
      exact ⟨present, Function.update_self ..⟩
    · exact absurd frees (by simp)
  have unused : address ∉ after.used := by
    rw [mem_used, freed.2]
    simp
  rw [live, live, ← Finset.card_insert_of_notMem unused]
  congr 1
  ext other
  rw [Finset.mem_insert, mem_used, mem_used]
  by_cases here : other = address
  · rw [here]
    simp [freed.1]
  · rw [blocks_free_of_ne frees here]
    simp [here]

theorem live_freeAll {addresses : List ℕ} (frees : heap.freeAll addresses = some after) :
    after.live + addresses.length = heap.live := by
  induction addresses generalizing heap with
  | nil => rw [← Option.some.inj frees, List.length_nil, Nat.add_zero]
  | cons address addresses ih =>
      rcases Option.bind_eq_some_iff.mp frees with ⟨middle, first, rest⟩
      rw [← live_free first, ← ih rest, List.length_cons, Nat.add_assoc]

end Heap

end Xpir
