import Xpir.Foundations.Heap
import Xpir.Foundations.Lockstep

/-!
# Renaming of addresses

A program that names addresses only through the operations of a heap does the same in two
heaps that hold the same blocks at other addresses. This file compares a heap with a copy:
the addresses below a base are common to both, the others are shifted. Each operation runs
in lockstep on both, and leaves the blocks below the base as they are, provided that it
frees and writes only above.
-/

namespace Xpir

/-- Words that may point to blocks of a heap. -/
class PointerWord (Word : Type) where
  pointsTo : Word → ℕ → Prop
  rename : (ℕ → ℕ) → Word → Word
  rename_fixed : ∀ (move : ℕ → ℕ) (word : Word),
    (∀ address, pointsTo word address → move address = address) → rename move word = word

/-- How the addresses of a heap are named in its copy. -/
structure Renaming where
  base : ℕ
  shift : ℕ

namespace Renaming

variable (names : Renaming)

def move (address : ℕ) : ℕ :=
  if address < names.base then address else address + names.shift

theorem move_of_lt {address : ℕ} (below : address < names.base) :
    names.move address = address := if_pos below

theorem move_of_ge {address : ℕ} (above : names.base ≤ address) :
    names.move address = address + names.shift := if_neg (not_lt.mpr above)

theorem move_injective : Function.Injective names.move := by
  intro address other same
  simp only [move] at same
  split at same <;> split at same <;> omega

variable {Word : Type} [PointerWord Word]

def image : Word → Word := PointerWord.rename names.move

/-- The word does not point to a block below the base. -/
def Owned (word : Word) : Prop := ∀ address, PointerWord.pointsTo word address →
  names.base ≤ address

/-- The copy holds the blocks of the heap, of which those below the base are kept. -/
structure Copies (kept : ℕ → Option (List Word)) (heap copy : Heap Word) : Prop where
  base_le : names.base ≤ heap.next
  next_eq : copy.next = heap.next + names.shift
  below : ∀ address < names.base, heap.blocks address = kept address
  blocks : ∀ address, copy.blocks (names.move address) =
    (heap.blocks address).map (List.map names.image)
  owned : ∀ address, names.base ≤ address → ∀ words, heap.blocks address = some words →
    ∀ word ∈ words, names.Owned word

/-- No block points to an address from the base on. -/
def PointsBelow (blocks : ℕ → Option (List Word)) : Prop :=
  ∀ address words, blocks address = some words → ∀ word ∈ words, ∀ target,
    PointerWord.pointsTo word target → target < names.base

variable {names} {kept : ℕ → Option (List Word)} {heap copy : Heap Word} {words : List Word}
  {word : Word} {address index : ℕ}

theorem PointsBelow.map_image (inside : names.PointsBelow kept)
    (block : kept address = some words) :
    words.map names.image = words := by
  rw [List.map_congr_left, List.map_id]
  intro word word_mem
  apply PointerWord.rename_fixed
  intro target points
  exact names.move_of_lt (inside address words block word word_mem target points)

namespace Copies

theorem move_next (copies : names.Copies kept heap copy) :
    names.move heap.next = copy.next := by
  rw [copies.next_eq, names.move_of_ge copies.base_le]

theorem read (copies : names.Copies kept heap copy) (address index : ℕ) :
    copy.read (names.move address) index = (heap.read address index).map names.image := by
  rw [Heap.read, Heap.read, copies.blocks]
  cases heap.blocks address with
  | none => rfl
  | some words => simp

theorem owned_of_read (copies : names.Copies kept heap copy) (above : names.base ≤ address)
    (reads : heap.read address index = some word) : names.Owned word := by
  rcases Option.bind_eq_some_iff.mp reads with ⟨words, block, here⟩
  exact copies.owned address above words block word (List.mem_of_getElem? here)

theorem alloc (copies : names.Copies kept heap copy)
    (owned : ∀ word ∈ words, names.Owned word) :
    names.Copies kept (heap.alloc words) (copy.alloc (words.map names.image)) := by
  have base_le := copies.base_le
  constructor
  · exact base_le.trans (Nat.le_succ _)
  · rw [Heap.next_alloc, Heap.next_alloc, copies.next_eq]
    omega
  · intro address below
    rw [Heap.blocks_alloc_of_ne words (by omega), copies.below address below]
  · intro address
    by_cases new : address = heap.next
    · rw [new, copies.move_next, Heap.blocks_alloc_next, Heap.blocks_alloc_next, Option.map_some]
    · have apart : names.move address ≠ copy.next := by
        rw [← copies.move_next]
        exact names.move_injective.ne new
      rw [Heap.blocks_alloc_of_ne _ apart, Heap.blocks_alloc_of_ne _ new, copies.blocks]
  · intro address above block block_eq
    by_cases new : address = heap.next
    · rw [new, Heap.blocks_alloc_next, Option.some.injEq] at block_eq
      rw [← block_eq]
      exact owned
    · rw [Heap.blocks_alloc_of_ne _ new] at block_eq
      exact copies.owned address above block block_eq

/-- A block that is filled from a list. -/
theorem alloc_map {Index : Type} {list : List Index} {first second : Index → Word}
    (copies : names.Copies kept heap copy)
    (images : ∀ here ∈ list, names.image (first here) = second here)
    (owned : ∀ here ∈ list, names.Owned (first here)) :
    names.Copies kept (heap.alloc (list.map first)) (copy.alloc (list.map second)) := by
  have renamed : list.map second = (list.map first).map names.image := by
    rw [List.map_map]
    exact List.map_congr_left fun here here_mem => (images here here_mem).symm
  rw [renamed]
  apply copies.alloc
  intro word word_mem
  rcases List.mem_map.mp word_mem with ⟨here, here_mem, rfl⟩
  exact owned here here_mem

/-- A block above the base is replaced on both sides. -/
theorem replace (copies : names.Copies kept heap copy) (above : names.base ≤ address)
    {block : Option (List Word)} {after afterCopy : Heap Word}
    (owned : ∀ words, block = some words → ∀ word ∈ words, names.Owned word)
    (next_eq : after.next = heap.next) (copy_next : afterCopy.next = copy.next)
    (here : after.blocks address = block)
    (moved : afterCopy.blocks (names.move address) = block.map (List.map names.image))
    (others : ∀ other ≠ address, after.blocks other = heap.blocks other)
    (copyOthers : ∀ other ≠ names.move address, afterCopy.blocks other = copy.blocks other) :
    names.Copies kept after afterCopy := by
  constructor
  · rw [next_eq]
    exact copies.base_le
  · rw [next_eq, copy_next, copies.next_eq]
  · intro other below
    rw [others other (by omega), copies.below other below]
  · intro other
    by_cases same : other = address
    · rw [same, moved, here]
    · rw [others other same, copyOthers _ (names.move_injective.ne same), copies.blocks]
  · intro other otherAbove words block_eq
    by_cases same : other = address
    · rw [same, here] at block_eq
      exact owned words block_eq
    · rw [others other same] at block_eq
      exact copies.owned other otherAbove words block_eq

theorem free (copies : names.Copies kept heap copy) (above : names.base ≤ address) :
    Lockstep (names.Copies kept) (heap.free address) (copy.free (names.move address)) := by
  have moved := copies.blocks address
  cases block : heap.blocks address with
  | none =>
      rw [block, Option.map_none] at moved
      rw [Heap.free_eq_none block, Heap.free_eq_none moved]
      exact .none
  | some words =>
      rw [block, Option.map_some] at moved
      rcases Heap.free_spec block with ⟨after, frees, next_eq, here, others⟩
      rcases Heap.free_spec moved with ⟨afterCopy, copyFrees, copy_next, copyHere, copyOthers⟩
      rw [frees, copyFrees]
      refine .some (copies.replace above ?_ next_eq copy_next here copyHere others copyOthers)
      intro words none
      exact absurd none (by simp)

theorem freeAll {addresses : List ℕ} (copies : names.Copies kept heap copy)
    (above : ∀ address ∈ addresses, names.base ≤ address) :
    Lockstep (names.Copies kept) (heap.freeAll addresses)
      (copy.freeAll (addresses.map names.move)) := by
  induction addresses generalizing heap copy with
  | nil => exact .some copies
  | cons address addresses ih =>
      apply (copies.free (above address List.mem_cons_self)).bind
      intro after afterCopy copies
      exact ih copies fun other other_mem => above other (List.mem_cons_of_mem address other_mem)

theorem write (copies : names.Copies kept heap copy) (above : names.base ≤ address)
    (owned : names.Owned word) :
    Lockstep (names.Copies kept) (heap.write address index word)
      (copy.write (names.move address) index (names.image word)) := by
  have moved := copies.blocks address
  cases block : heap.blocks address with
  | none =>
      rw [block, Option.map_none] at moved
      rw [Heap.write, Heap.write, dif_neg (by simp [block]), dif_neg (by simp [moved])]
      exact .none
  | some words =>
      rw [block, Option.map_some] at moved
      by_cases inside : index < words.length
      · rcases Heap.write_spec block inside word with ⟨after, writes, next_eq, here, others⟩
        rcases Heap.write_spec moved (by rwa [List.length_map]) (names.image word) with
          ⟨afterCopy, copyWrites, copy_next, copyHere, copyOthers⟩
        rw [writes, copyWrites]
        refine .some (copies.replace above ?_ next_eq copy_next here ?_ others copyOthers)
        · intro changed changed_eq other other_mem
          rw [← Option.some.inj changed_eq] at other_mem
          rcases List.mem_or_eq_of_mem_set other_mem with before | rfl
          · exact copies.owned address above words block other before
          · exact owned
        · rw [copyHere, Option.map_some, List.map_set]
      · rw [Heap.write, Heap.write]
        simp only [block, moved, Option.isSome_some, dite_true, Option.get_some, List.length_map,
          if_neg inside]
        exact .none

/-- Below the base, the copy holds what has been kept. -/
theorem copy_below (copies : names.Copies kept heap copy)
    (inside : names.PointsBelow kept) (below : address < names.base) :
    copy.blocks address = kept address := by
  have moved := copies.blocks address
  rw [names.move_of_lt below, copies.below address below] at moved
  rw [moved]
  cases block : kept address with
  | none => rfl
  | some words => rw [Option.map_some, inside.map_image block]

end Copies

/-- A heap, and one that has kept all its blocks and may have more. -/
theorem copies_of_kept (base_eq : names.base = heap.next)
    (next_eq : copy.next = heap.next + names.shift)
    (inside : names.PointsBelow heap.blocks)
    (below : ∀ address < heap.next, copy.blocks address = heap.blocks address) :
    names.Copies heap.blocks heap copy := by
  have absent : ∀ address, names.base ≤ address → heap.blocks address = none := by
    intro address above
    exact heap.fresh address (base_eq ▸ above)
  constructor
  · exact base_eq.le
  · exact next_eq
  · intro address _
    rfl
  · intro address
    rcases lt_or_ge address names.base with common | above
    · rw [names.move_of_lt common, below address (base_eq ▸ common)]
      cases block : heap.blocks address with
      | none => rfl
      | some words => rw [Option.map_some, inside.map_image block]
    · rw [names.move_of_ge above, absent address above, Option.map_none]
      exact copy.fresh _ (by omega)
  · intro address above words block
    rw [absent address above] at block
    exact absurd block (by simp)

end Renaming

end Xpir
