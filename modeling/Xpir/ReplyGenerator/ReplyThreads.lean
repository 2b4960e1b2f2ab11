import Mathlib.Data.List.Infix
import Xpir.Foundations.Heap

/-!
# The threads of a reply

A database that is too large for the memory is processed in several iterations, which store
their replies in one array. A second thread waits for the replies in increasing order, sends
them and frees them. Each iteration allocates the array anew and frees what is left in the
old one, so that a reply survives only if it has been sent before.

This file is about the two threads, for any numbers of polynomials. They take their steps in
any order; a step reads or writes one entry of the array.
-/

namespace Xpir

/-- What an object of the generator computes about the sizes of its iterations. -/
structure GenericSizes where
  nbr_of_iterations : ℕ
  repliesIndex : ℕ → ℕ
  currentMaxNbPolys : ℕ → ℕ
  repliesAmount : ℕ

/-- Where the generator is in an iteration: before `generateReply`, in `freeResult`, or after it. -/
inductive GeneratorProgress where
  | waiting
  | freeing (i : ℕ)
  | storing (current_poly : ℕ)

/-- The memory of the replies, and the variables of the two threads. -/
structure ReplyThreads (Cipher : Type) where
  heap : Heap Cipher
  repliesArray : Option (List (Option ℕ))
  iteration : ℕ
  progress : GeneratorProgress
  i : ℕ
  ptr : Option ℕ
  sent : List Cipher

namespace ReplyThreads

variable {Cipher : Type} (sizes : GenericSizes) (reply : ℕ → ℕ → Option Cipher)
  (state : ReplyThreads Cipher)

def fresh : ReplyThreads Cipher where
  heap := Heap.empty
  repliesArray := none
  iteration := 0
  progress := .waiting
  i := 0
  ptr := none
  sent := []

/-- The array is allocated with null pointers. -/
def callocReplies : ReplyThreads Cipher :=
  { state with
    repliesArray := some (List.replicate sizes.repliesAmount none)
    progress := .storing 0 }

/-- A round of the loop of `freeResult`. -/
def freeReply (i : ℕ) : Option (ReplyThreads Cipher) :=
  state.repliesArray.bind fun repliesArray => repliesArray[i]?.bind fun entry =>
    match entry with
    | none => some { state with progress := .freeing (i + 1) }
    | some ptr => (state.heap.free ptr).map fun heap =>
        { state with
          heap
          repliesArray := some (repliesArray.set i none)
          progress := .freeing (i + 1) }

/-- The reply of a polynomial is computed and stored. -/
def storeReply (current_poly : ℕ) : Option (ReplyThreads Cipher) :=
  (reply state.iteration current_poly).bind fun result => state.repliesArray.bind fun repliesArray =>
    let index := sizes.repliesIndex state.iteration + current_poly
    if index < repliesArray.length then
      some
        { state with
          heap := state.heap.alloc [result]
          repliesArray := some (repliesArray.set index (some state.heap.next))
          progress := .storing (current_poly + 1) }
    else none

/-- The next step of `generateReplyGeneric`, which does nothing once it has returned. -/
def generateReplyGeneric : Option (ReplyThreads Cipher) :=
  if sizes.nbr_of_iterations ≤ state.iteration then some state
  else
    match state.progress with
    | .waiting =>
        if state.repliesArray.isSome then some { state with progress := .freeing 0 }
        else some (state.callocReplies sizes)
    | .freeing i =>
        if i < sizes.repliesAmount then state.freeReply i else some (state.callocReplies sizes)
    | .storing current_poly =>
        if current_poly < sizes.currentMaxNbPolys state.iteration then
          state.storeReply sizes reply current_poly
        else some { state with iteration := state.iteration + 1, progress := .waiting }

/-- The next step of `uploadWorker`: it sleeps, takes a reply, or has sent it and frees it. -/
def uploadWorker : Option (ReplyThreads Cipher) :=
  if sizes.repliesAmount ≤ state.i then some state
  else
    match state.ptr, state.repliesArray with
    | none, none => some state
    | none, some repliesArray =>
        repliesArray[state.i]?.map fun entry => { state with ptr := entry }
    | some ptr, repliesArray =>
        (state.heap.read ptr 0).bind fun result => (state.heap.free ptr).bind fun heap =>
          repliesArray.bind fun repliesArray =>
            if state.i < repliesArray.length then
              some
                { state with
                  heap
                  repliesArray := some (repliesArray.set state.i none)
                  i := state.i + 1
                  ptr := none
                  sent := state.sent ++ [result] }
            else none

end ReplyThreads

inductive ReplyThread where
  | generator
  | uploader
deriving DecidableEq

namespace ReplyThreads

variable {Cipher : Type} (sizes : GenericSizes) (reply : ℕ → ℕ → Option Cipher)

def step (state : ReplyThreads Cipher) : ReplyThread → Option (ReplyThreads Cipher)
  | .generator => state.generateReplyGeneric sizes reply
  | .uploader => state.uploadWorker sizes

/-- The state after the threads have taken steps in some order. -/
def run (schedule : List ReplyThread) : Option (ReplyThreads Cipher) :=
  schedule.foldlM (step sizes reply) fresh

/-- The first chunk of an iteration, and the number of all chunks after the last one. -/
def place (iteration : ℕ) : ℕ :=
  if iteration < sizes.nbr_of_iterations then sizes.repliesIndex iteration
  else sizes.repliesAmount

/-- The chunks whose replies have been stored: those of the iterations before, and of this one. -/
def stored (state : ReplyThreads Cipher) : ℕ :=
  place sizes state.iteration +
    match state.progress with
    | .storing current_poly => current_poly
    | _ => 0

/-- The reply of a chunk has been sent, or is in the array. -/
def Present (state : ReplyThreads Cipher) (k : ℕ) (result : Cipher) : Prop :=
  state.sent[k]? = some result ∨
    ∃ repliesArray ptr, state.repliesArray = some repliesArray ∧
      repliesArray[k]? = some (some ptr) ∧ state.heap.blocks ptr = some [result]

/-- More steps than the generator takes until it returns. -/
def generatorSteps : ℕ :=
  sizes.nbr_of_iterations * (2 * sizes.repliesAmount + 4)

/-- The replies are present from the time they are stored, and in the end all of them are. -/
def Survive (chunkReply : ℕ → Cipher) (schedule : List ReplyThread) : Prop :=
  (∀ before, before <+: schedule → ∃ state, run sizes reply before = some state ∧
    ∀ k < stored sizes state, state.Present k (chunkReply k)) ∧
  (generatorSteps sizes ≤ schedule.count .generator →
    ∃ state, run sizes reply schedule = some state ∧
      ∀ k < sizes.repliesAmount, state.Present k (chunkReply k))

/-- `freeResult` is at a null pointer, if it is running. -/
def FindsNull (state : ReplyThreads Cipher) : Prop :=
  ∀ i repliesArray, state.progress = .freeing i → state.repliesArray = some repliesArray →
    ∀ ptr, repliesArray[i]? ≠ some (some ptr)

/-- The generator only takes a step of `freeResult` if the reply at its place has been taken. -/
def WaitsForUploader (schedule : List ReplyThread) : Prop :=
  ∀ before, before ++ [.generator] <+: schedule →
    ∀ state, run sizes reply before = some state → state.FindsNull

end ReplyThreads

/-! ## The array of the replies -/

/-- An array that holds the replies of the chunks from one to another, and null pointers. -/
structure HoldsReplies {Cipher : Type} (chunkReply : ℕ → Cipher) (heap : Heap Cipher)
    (repliesArray : List (Option ℕ)) (amount first last : ℕ) : Prop where
  length_eq : repliesArray.length = amount
  full : ∀ k, first ≤ k → k < last →
    ∃ ptr, repliesArray[k]? = some (some ptr) ∧ heap.blocks ptr = some [chunkReply k]
  null : ∀ k < amount, k < first ∨ last ≤ k → repliesArray[k]? = some none
  apart : ∀ k l ptr : ℕ, repliesArray[k]? = some (some ptr) →
    repliesArray[l]? = some (some ptr) → k = l

theorem getElem?_of_set_none {entries : List (Option ℕ)} {i k ptr : ℕ}
    (here : (entries.set i none)[k]? = some (some ptr)) : entries[k]? = some (some ptr) := by
  rw [List.getElem?_set] at here
  split at here
  · split at here
    · exact absurd (Option.some.inj here).symm (Option.some_ne_none ptr)
    · exact absurd here.symm (Option.some_ne_none _)
  · exact here

namespace HoldsReplies

variable {Cipher : Type} {chunkReply : ℕ → Cipher} {heap : Heap Cipher}
  {repliesArray : List (Option ℕ)} {amount first last : ℕ}

theorem replicate (heap : Heap Cipher) (amount place : ℕ) :
    HoldsReplies chunkReply heap (List.replicate amount none) amount place place where
  length_eq := List.length_replicate
  full k first_le lt_last := by omega
  null k k_lt _ := by rw [List.getElem?_replicate, if_pos k_lt]
  apart k l ptr here _ := by
    rw [List.getElem?_replicate] at here
    split at here <;> simp at here

/-- Only the entries from the first to the last are pointers. -/
theorem inside (holds : HoldsReplies chunkReply heap repliesArray amount first last) {k ptr : ℕ}
    (here : repliesArray[k]? = some (some ptr)) : first ≤ k ∧ k < last := by
  have k_lt : k < amount := by
    rw [← holds.length_eq]
    exact (List.getElem?_eq_some_iff.mp here).1
  by_contra outside
  rw [holds.null k k_lt (by omega)] at here
  exact Option.some_ne_none ptr (Option.some.inj here).symm

/-- A reply is stored behind the last. -/
theorem store (holds : HoldsReplies chunkReply heap repliesArray amount first last)
    (first_le_last : first ≤ last) (last_lt : last < amount) :
    HoldsReplies chunkReply (heap.alloc [chunkReply last])
      (repliesArray.set last (some heap.next)) amount first (last + 1) := by
  have inRange : last < repliesArray.length := by
    rw [holds.length_eq]
    exact last_lt
  have below : ∀ k ptr : ℕ, repliesArray[k]? = some (some ptr) → ptr < heap.next := by
    intro k ptr here
    rcases holds.inside here with ⟨first_le, lt_last⟩
    rcases holds.full k first_le lt_last with ⟨same, same_eq, used⟩
    rw [here, Option.some.injEq, Option.some.injEq] at same_eq
    rw [same_eq]
    exact Heap.lt_next used
  refine ⟨by rw [List.length_set, holds.length_eq], ?_, ?_, ?_⟩
  · intro k first_le lt_last
    rcases Nat.lt_succ_iff_lt_or_eq.mp lt_last with earlier | rfl
    · rcases holds.full k first_le earlier with ⟨ptr, here, used⟩
      refine ⟨ptr, ?_, Heap.blocks_alloc used⟩
      rw [List.getElem?_set_ne earlier.ne', here]
    · exact ⟨heap.next, List.getElem?_set_self inRange, Heap.blocks_alloc_next ..⟩
  · intro k k_lt outside
    rw [List.getElem?_set_ne (by omega), holds.null k k_lt (by omega)]
  · intro k l ptr here there
    rw [List.getElem?_set] at here there
    split at here <;> split at there
    · omega
    · next last_eq _ =>
        rw [Option.some.injEq, Option.some.injEq] at here
        have := below l ptr there
        omega
    · next _ last_eq =>
        rw [Option.some.injEq, Option.some.injEq] at there
        have := below k ptr here
        omega
    · exact holds.apart k l ptr here there

/-- The first reply can be read and freed. -/
theorem take (holds : HoldsReplies chunkReply heap repliesArray amount first last) {ptr : ℕ}
    (here : repliesArray[first]? = some (some ptr)) :
    heap.read ptr 0 = some (chunkReply first) ∧ ∃ after, heap.free ptr = some after ∧
      HoldsReplies chunkReply after (repliesArray.set first none) amount (first + 1) last := by
  rcases holds.full first le_rfl (holds.inside here).2 with ⟨same, same_eq, used⟩
  obtain rfl : ptr = same := by
    rw [here, Option.some.injEq, Option.some.injEq] at same_eq
    exact same_eq
  rcases Heap.free_spec used with ⟨after, frees, -, -, others⟩
  have inRange : first < repliesArray.length := (List.getElem?_eq_some_iff.mp here).1
  refine ⟨by rw [Heap.read_of_block used]; rfl, after, frees,
    by rw [List.length_set, holds.length_eq], ?_, ?_, ?_⟩
  · intro k first_lt lt_last
    rcases holds.full k (by omega) lt_last with ⟨other, other_eq, other_used⟩
    refine ⟨other, by rw [List.getElem?_set_ne (by omega), other_eq], ?_⟩
    rw [others other, other_used]
    rintro rfl
    have := holds.apart first k other here other_eq
    omega
  · intro k k_lt outside
    rcases eq_or_ne first k with rfl | apart
    · exact List.getElem?_set_self inRange
    · rw [List.getElem?_set_ne apart, holds.null k k_lt (by omega)]
  · intro k l other there also
    exact holds.apart k l other (getElem?_of_set_none there) (getElem?_of_set_none also)

end HoldsReplies

/-! ## The invariant of the threads -/

namespace ReplyThreads

variable {Cipher : Type} {sizes : GenericSizes} {reply : ℕ → ℕ → Option Cipher}
  {chunkReply : ℕ → Cipher} {state : ReplyThreads Cipher} {schedule : List ReplyThread}

/-- The iterations store the replies of consecutive chunks. -/
structure Consecutive (sizes : GenericSizes) (reply : ℕ → ℕ → Option Cipher)
    (chunkReply : ℕ → Cipher) : Prop where
  first : place sizes 0 = 0
  next : ∀ iteration < sizes.nbr_of_iterations,
    place sizes (iteration + 1) = place sizes iteration + sizes.currentMaxNbPolys iteration
  polys_pos : ∀ iteration < sizes.nbr_of_iterations, 0 < sizes.currentMaxNbPolys iteration
  reply_eq : ∀ iteration < sizes.nbr_of_iterations,
    ∀ current_poly < sizes.currentMaxNbPolys iteration,
      reply iteration current_poly = some (chunkReply (sizes.repliesIndex iteration + current_poly))

theorem place_eq {iteration : ℕ} (inRange : iteration < sizes.nbr_of_iterations) :
    place sizes iteration = sizes.repliesIndex iteration := if_pos inRange

theorem place_last : place sizes sizes.nbr_of_iterations = sizes.repliesAmount :=
  if_neg (lt_irrefl _)

theorem Consecutive.place_le (consecutive : Consecutive sizes reply chunkReply) {iteration : ℕ}
    (iteration_le : iteration ≤ sizes.nbr_of_iterations) :
    place sizes iteration ≤ sizes.repliesAmount := by
  induction iteration_le using Nat.decreasingInduction with
  | self => rw [place_last]
  | of_succ iteration inRange ih =>
      rw [consecutive.next iteration inRange] at ih
      omega

/-- What the progress of the generator says about the replies that have been taken. -/
def Settled (sizes : GenericSizes) (state : ReplyThreads Cipher) : Prop :=
  match state.progress with
  | .waiting => place sizes (state.iteration - 1) ≤ state.i
  | .freeing i => state.iteration < sizes.nbr_of_iterations ∧ i ≤ sizes.repliesAmount ∧
      min i (place sizes state.iteration) ≤ state.i
  | .storing current_poly => state.iteration < sizes.nbr_of_iterations ∧
      current_poly ≤ sizes.currentMaxNbPolys state.iteration ∧
      place sizes state.iteration ≤ state.i

/-- No reply has been lost so far. -/
structure Sound (sizes : GenericSizes) (chunkReply : ℕ → Cipher) (state : ReplyThreads Cipher) :
    Prop where
  iteration_le : state.iteration ≤ sizes.nbr_of_iterations
  sent_eq : state.sent = (List.range state.i).map chunkReply
  i_le : state.i ≤ stored sizes state
  settled : Settled sizes state
  replies :
    (state.repliesArray = none ∧ state.ptr = none ∧ state.progress = .waiting ∧
      stored sizes state = 0) ∨
    ∃ repliesArray, state.repliesArray = some repliesArray ∧
      HoldsReplies chunkReply state.heap repliesArray sizes.repliesAmount state.i
        (stored sizes state) ∧
      ∀ ptr, state.ptr = some ptr → repliesArray[state.i]? = some (some ptr)

theorem sound_fresh (consecutive : Consecutive sizes reply chunkReply) :
    Sound sizes chunkReply fresh where
  iteration_le := Nat.zero_le _
  sent_eq := rfl
  i_le := Nat.zero_le _
  settled := consecutive.first.le
  replies := Or.inl ⟨rfl, rfl, rfl, consecutive.first⟩

/-- All that has been stored is present. -/
theorem Sound.present (sound : Sound sizes chunkReply state) {k : ℕ}
    (k_lt : k < stored sizes state) : state.Present k (chunkReply k) := by
  rcases Nat.lt_or_ge k state.i with taken | left
  · refine Or.inl ?_
    rw [sound.sent_eq, List.getElem?_map, List.getElem?_range taken, Option.map_some]
  · rcases sound.replies with ⟨-, -, -, nothing⟩ | ⟨repliesArray, array_eq, holds, -⟩
    · omega
    · rcases holds.full k left k_lt with ⟨ptr, here, used⟩
      exact Or.inr ⟨repliesArray, ptr, array_eq, here, used⟩

theorem Settled.of_le {after : ReplyThreads Cipher} (settled : Settled sizes state)
    (iteration_eq : after.iteration = state.iteration) (progress_eq : after.progress = state.progress)
    (le : state.i ≤ after.i) : Settled sizes after := by
  rw [Settled, progress_eq, iteration_eq]
  rw [Settled] at settled
  split at settled
  · exact settled.trans le
  · exact ⟨settled.1, settled.2.1, settled.2.2.trans le⟩
  · exact ⟨settled.1, settled.2.1, settled.2.2.trans le⟩

/-- The second thread only takes what has been stored. -/
theorem Sound.uploadWorker (sound : Sound sizes chunkReply state) :
    ∃ after, state.uploadWorker sizes = some after ∧ Sound sizes chunkReply after ∧
      after.iteration = state.iteration ∧ after.progress = state.progress ∧
      after.i ≤ state.i + 1 := by
  rw [ReplyThreads.uploadWorker]
  split
  · exact ⟨state, rfl, sound, rfl, rfl, Nat.le_succ _⟩
  · next unfinished =>
      rcases sound.replies with ⟨array_eq, ptr_eq, -, -⟩ | ⟨repliesArray, array_eq, holds, held⟩
      · rw [array_eq, ptr_eq]
        exact ⟨state, rfl, sound, rfl, rfl, Nat.le_succ _⟩
      · have inRange : state.i < repliesArray.length := by
          rw [holds.length_eq]
          exact not_le.mp unfinished
        cases ptr_eq : state.ptr with
        | none =>
            rw [array_eq]
            refine ⟨{ state with ptr := repliesArray[state.i] }, ?_, ?_, rfl, rfl, Nat.le_succ _⟩
            · simp only [List.getElem?_eq_getElem inRange, Option.map_some, array_eq]
            · refine { sound with replies := Or.inr ⟨repliesArray, array_eq, holds, ?_⟩ }
              intro ptr taken
              rw [List.getElem?_eq_getElem inRange, ← taken]
        | some ptr =>
            have here := held ptr ptr_eq
            rcases holds.take here with ⟨reads, heap, frees, rest⟩
            refine ⟨
              { state with
                heap
                repliesArray := some (repliesArray.set state.i none)
                i := state.i + 1
                ptr := none
                sent := state.sent ++ [chunkReply state.i] }, ?_, ?_, rfl, rfl, le_rfl⟩
            · simp only [array_eq, reads, frees, Option.bind_some, inRange, if_true]
            · exact
                { iteration_le := sound.iteration_le
                  sent_eq := by
                    rw [sound.sent_eq, List.range_succ, List.map_append, List.map_singleton]
                  i_le := (holds.inside here).2
                  settled := sound.settled.of_le rfl rfl (Nat.le_succ state.i)
                  replies := Or.inr ⟨_, rfl, rest, fun ptr clash => by contradiction⟩ }

/-- The steps that the generator has taken, counted so that each iteration has as many. -/
def work (sizes : GenericSizes) (state : ReplyThreads Cipher) : ℕ :=
  state.iteration * (2 * sizes.repliesAmount + 4) +
    match state.progress with
    | .waiting => 0
    | .freeing i => i + 1
    | .storing current_poly => sizes.repliesAmount + 2 + current_poly

/-- A new array is sound if all replies have been taken from the old one. -/
theorem Sound.callocReplies (sound : Sound sizes chunkReply state)
    (unfinished : state.iteration < sizes.nbr_of_iterations) (ptr_eq : state.ptr = none)
    (taken : state.i = place sizes state.iteration) :
    Sound sizes chunkReply (state.callocReplies sizes) where
  iteration_le := sound.iteration_le
  sent_eq := sound.sent_eq
  i_le := taken.le
  settled := ⟨unfinished, Nat.zero_le _, taken.ge⟩
  replies := by
    refine Or.inr ⟨_, rfl, ?_, ?_⟩
    · change HoldsReplies chunkReply state.heap _ sizes.repliesAmount state.i
        (place sizes state.iteration + 0)
      rw [Nat.add_zero, ← taken]
      exact HoldsReplies.replicate ..
    · intro ptr held
      exact absurd (ptr_eq.symm.trans held) (by simp)

/-- A round of `freeResult` at a null pointer changes nothing. -/
theorem Sound.freeReply (sound : Sound sizes chunkReply state) (finds : state.FindsNull) {i : ℕ}
    (progress_eq : state.progress = .freeing i) (i_lt : i < sizes.repliesAmount) :
    state.freeReply i = some { state with progress := .freeing (i + 1) } ∧
      Sound sizes chunkReply { state with progress := .freeing (i + 1) } := by
  have stored_eq : stored sizes state = place sizes state.iteration := by
    rw [stored, progress_eq, Nat.add_zero]
  rcases sound.replies with ⟨-, -, waiting, -⟩ | ⟨repliesArray, array_eq, holds, held⟩
  · rw [progress_eq] at waiting
    contradiction
  · have inRange : i < repliesArray.length := by
      rw [holds.length_eq]
      exact i_lt
    have null : repliesArray[i]? = some none := by
      cases entry_eq : repliesArray[i] with
      | none => rw [List.getElem?_eq_getElem inRange, entry_eq]
      | some ptr =>
          refine absurd ?_ (finds i repliesArray progress_eq array_eq ptr)
          rw [List.getElem?_eq_getElem inRange, entry_eq]
    have settled := sound.settled
    rw [Settled, progress_eq] at settled
    rcases settled with ⟨unfinished, i_le, freed⟩
    refine ⟨?_, ?_⟩
    · rw [ReplyThreads.freeReply, array_eq, Option.bind_some, null, Option.bind_some]
    · refine
        { sound with
          i_le := sound.i_le.trans_eq stored_eq
          settled := ⟨unfinished, i_lt, ?_⟩
          replies := Or.inr ⟨repliesArray, array_eq, ?_, held⟩ }
      · -- The entry is null, so that its reply has been taken or has not been stored.
        change min (i + 1) (place sizes state.iteration) ≤ state.i
        by_contra left
        rcases holds.full i (by omega) (by omega) with ⟨ptr, here, -⟩
        rw [null] at here
        exact Option.some_ne_none ptr (Option.some.inj here).symm
      · rw [stored_eq] at holds
        exact holds

theorem Sound.storeReply (consecutive : Consecutive sizes reply chunkReply)
    (sound : Sound sizes chunkReply state) {current_poly : ℕ}
    (progress_eq : state.progress = .storing current_poly)
    (poly_lt : current_poly < sizes.currentMaxNbPolys state.iteration) :
    ∃ after, state.storeReply sizes reply current_poly = some after ∧
      Sound sizes chunkReply after ∧ after.i = state.i ∧ after.iteration = state.iteration ∧
      after.progress = .storing (current_poly + 1) := by
  have stored_eq : stored sizes state = place sizes state.iteration + current_poly := by
    rw [stored, progress_eq]
  have settled := sound.settled
  rw [Settled, progress_eq] at settled
  rcases settled with ⟨unfinished, -, taken⟩
  have next := consecutive.next state.iteration unfinished
  have place_le := consecutive.place_le (show state.iteration + 1 ≤ _ from unfinished)
  rcases sound.replies with ⟨-, -, waiting, -⟩ | ⟨repliesArray, array_eq, holds, held⟩
  · rw [progress_eq] at waiting
    contradiction
  · rw [stored_eq] at holds
    have i_le := sound.i_le
    have stored_lt : place sizes state.iteration + current_poly < sizes.repliesAmount := by omega
    refine ⟨
      { state with
        heap := state.heap.alloc [chunkReply (place sizes state.iteration + current_poly)]
        repliesArray := some (repliesArray.set (place sizes state.iteration + current_poly)
          (some state.heap.next))
        progress := .storing (current_poly + 1) }, ?_, ?_, rfl, rfl, rfl⟩
    · rw [ReplyThreads.storeReply, consecutive.reply_eq state.iteration unfinished current_poly
        poly_lt, ← place_eq unfinished, Option.bind_some, array_eq, Option.bind_some]
      exact if_pos (by rw [holds.length_eq]; exact stored_lt)
    · refine
        { iteration_le := sound.iteration_le
          sent_eq := sound.sent_eq
          i_le := ?_
          settled := ⟨unfinished, poly_lt, taken⟩
          replies := Or.inr ⟨_, rfl, holds.store (by omega) stored_lt, ?_⟩ }
      · change state.i ≤ place sizes state.iteration + (current_poly + 1)
        omega
      · intro ptr ptr_eq
        have here := held ptr ptr_eq
        have apart : place sizes state.iteration + current_poly ≠ state.i :=
          (holds.inside here).2.ne'
        exact (List.getElem?_set_ne apart).trans here

/-- The generator loses no reply as long as `freeResult` only finds null pointers. -/
theorem Sound.generateReplyGeneric (consecutive : Consecutive sizes reply chunkReply)
    (sound : Sound sizes chunkReply state) (finds : state.FindsNull)
    (unfinished : state.iteration < sizes.nbr_of_iterations) :
    ∃ after, state.generateReplyGeneric sizes reply = some after ∧
      Sound sizes chunkReply after ∧ after.i = state.i ∧ work sizes state < work sizes after := by
  have i_le := sound.i_le
  have settled := sound.settled
  have place_le := consecutive.place_le sound.iteration_le
  have next := consecutive.next state.iteration unfinished
  have next_le := consecutive.place_le (show state.iteration + 1 ≤ _ from unfinished)
  rw [ReplyThreads.generateReplyGeneric, if_neg (not_le.mpr unfinished)]
  cases progress_eq : state.progress with
  | waiting =>
      rw [stored, progress_eq, Nat.add_zero] at i_le
      rcases sound.replies with ⟨array_eq, ptr_eq, -, nothing⟩ | ⟨repliesArray, array_eq, holds, held⟩
      · rw [stored, progress_eq, Nat.add_zero] at nothing
        refine ⟨state.callocReplies sizes, ?_, sound.callocReplies unfinished ptr_eq (by omega), rfl,
          ?_⟩
        · simp only [array_eq, Option.isSome_none, Bool.false_eq_true, if_false]
        · rw [work, progress_eq]
          change state.iteration * (2 * sizes.repliesAmount + 4) + 0 <
            state.iteration * (2 * sizes.repliesAmount + 4) + (sizes.repliesAmount + 2 + 0)
          omega
      · refine ⟨{ state with progress := .freeing 0 }, ?_, ?_, rfl, ?_⟩
        · simp only [array_eq, Option.isSome_some, if_true]
        · rw [stored, progress_eq] at holds
          exact
            { sound with
              i_le
              settled := ⟨unfinished, Nat.zero_le _, (Nat.min_le_left _ _).trans (Nat.zero_le _)⟩
              replies := Or.inr ⟨repliesArray, array_eq, holds, held⟩ }
        · rw [work, progress_eq]
          change state.iteration * (2 * sizes.repliesAmount + 4) + 0 <
            state.iteration * (2 * sizes.repliesAmount + 4) + (0 + 1)
          omega
  | freeing i =>
      rw [stored, progress_eq, Nat.add_zero] at i_le
      rw [Settled, progress_eq] at settled
      rcases settled with ⟨-, i_le_amount, freed⟩
      rcases Nat.lt_or_ge i sizes.repliesAmount with i_lt | complete
      · rcases sound.freeReply finds progress_eq i_lt with ⟨frees, rest⟩
        refine ⟨{ state with progress := .freeing (i + 1) }, ?_, rest, rfl, ?_⟩
        · simp only [i_lt, if_true, frees]
        · rw [work, progress_eq]
          change state.iteration * (2 * sizes.repliesAmount + 4) + (i + 1) <
            state.iteration * (2 * sizes.repliesAmount + 4) + (i + 1 + 1)
          omega
      · have taken : state.i = place sizes state.iteration := by omega
        have ptr_eq : state.ptr = none := by
          rcases sound.replies with ⟨-, ptr_eq, -, -⟩ | ⟨repliesArray, -, holds, held⟩
          · exact ptr_eq
          · cases ptr_eq : state.ptr with
            | none => rfl
            | some ptr =>
                have inside := holds.inside (held ptr ptr_eq)
                rw [stored, progress_eq, Nat.add_zero] at inside
                omega
        refine ⟨state.callocReplies sizes, ?_, sound.callocReplies unfinished ptr_eq taken, rfl, ?_⟩
        · simp only [not_lt.mpr complete, if_false]
        · rw [work, progress_eq]
          change state.iteration * (2 * sizes.repliesAmount + 4) + (i + 1) <
            state.iteration * (2 * sizes.repliesAmount + 4) + (sizes.repliesAmount + 2 + 0)
          omega
  | storing current_poly =>
      rw [stored, progress_eq] at i_le
      rw [Settled, progress_eq] at settled
      rcases settled with ⟨-, poly_le, taken⟩
      rcases Nat.lt_or_ge current_poly (sizes.currentMaxNbPolys state.iteration) with
        poly_lt | complete
      · rcases sound.storeReply consecutive progress_eq poly_lt with
          ⟨after, stores, rest, i_eq, iteration_eq, after_eq⟩
        refine ⟨after, ?_, rest, i_eq, ?_⟩
        · simp only [poly_lt, if_true, stores]
        · rw [work, work, progress_eq, after_eq, iteration_eq]
          exact Nat.lt_succ_self _
      · refine ⟨{ state with iteration := state.iteration + 1, progress := .waiting }, ?_, ?_, rfl, ?_⟩
        · simp only [not_lt.mpr complete, if_false]
        · have stored_eq : place sizes (state.iteration + 1) = stored sizes state := by
            rw [next, stored, progress_eq, le_antisymm poly_le complete]
          refine
            { iteration_le := unfinished
              sent_eq := sound.sent_eq
              i_le := by
                change state.i ≤ place sizes (state.iteration + 1)
                rw [stored_eq]
                exact sound.i_le
              settled := taken
              replies := ?_ }
          rcases sound.replies with ⟨-, -, waiting, -⟩ | ⟨repliesArray, array_eq, holds, held⟩
          · rw [progress_eq] at waiting
            contradiction
          · rw [← stored_eq] at holds
            exact Or.inr ⟨repliesArray, array_eq, holds, held⟩
        · rw [work, progress_eq]
          change state.iteration * (2 * sizes.repliesAmount + 4) + (sizes.repliesAmount + 2 + current_poly) <
            (state.iteration + 1) * (2 * sizes.repliesAmount + 4) + 0
          rw [Nat.add_mul]
          omega

/-- A step of `freeResult` at another pointer loses a reply. -/
theorem Sound.lost (sound : Sound sizes chunkReply state) (finds : ¬state.FindsNull)
    {after : ReplyThreads Cipher} (steps : state.generateReplyGeneric sizes reply = some after) :
    ∃ k < stored sizes after, ¬after.Present k (chunkReply k) := by
  simp only [FindsNull, not_forall, ne_eq, not_not] at finds
  rcases finds with ⟨i, repliesArray, progress_eq, array_eq, ptr, here⟩
  have settled := sound.settled
  rw [Settled, progress_eq] at settled
  rcases sound.replies with ⟨missing, -, -, -⟩ | ⟨same, same_eq, holds, -⟩
  · rw [array_eq] at missing
    contradiction
  · obtain rfl : repliesArray = same := Option.some.inj (array_eq.symm.trans same_eq)
    have inRange : i < repliesArray.length := (List.getElem?_eq_some_iff.mp here).1
    rcases holds.inside here with ⟨i_ge, i_lt⟩
    rw [stored, progress_eq, Nat.add_zero] at i_lt
    rw [ReplyThreads.generateReplyGeneric, if_neg (not_le.mpr settled.1), progress_eq] at steps
    simp only [← holds.length_eq, inRange, if_true] at steps
    rw [ReplyThreads.freeReply, array_eq, Option.bind_some, here, Option.bind_some] at steps
    rcases Option.map_eq_some_iff.mp steps with ⟨heap, -, rfl⟩
    refine ⟨i, i_lt, ?_⟩
    rintro (sent | ⟨entries, other, entries_eq, there, -⟩)
    · rw [sound.sent_eq, List.getElem?_eq_none (by rw [List.length_map, List.length_range]; exact i_ge)]
        at sent
      contradiction
    · rw [Option.some.injEq] at entries_eq
      rw [← entries_eq, List.getElem?_set_self inRange] at there
      exact Option.some_ne_none other (Option.some.inj there).symm

theorem run_append_singleton (schedule : List ReplyThread) (thread : ReplyThread) :
    run sizes reply (schedule ++ [thread]) =
      (run sizes reply schedule).bind fun state => step sizes reply state thread := by
  rw [run, List.foldlM_append]
  change (run sizes reply schedule).bind _ = _
  congr 1
  funext state
  rw [List.foldlM_cons]
  exact bind_pure (step sizes reply state thread)

theorem WaitsForUploader.append_singleton {thread : ReplyThread}
    (waits : WaitsForUploader sizes reply schedule)
    (last : thread = .generator →
      ∀ state, run sizes reply schedule = some state → state.FindsNull) :
    WaitsForUploader sizes reply (schedule ++ [thread]) := by
  intro before initial state runs
  rcases List.prefix_concat_iff.mp initial with whole | initial
  · rcases List.append_inj' whole rfl with ⟨rfl, thread_eq⟩
    exact last (List.singleton_injective thread_eq).symm state runs
  · exact waits before initial state runs

theorem WaitsForUploader.of_append {thread : ReplyThread}
    (waits : WaitsForUploader sizes reply (schedule ++ [thread])) :
    WaitsForUploader sizes reply schedule :=
  fun before initial => waits before (initial.trans (List.prefix_append schedule [thread]))

/-- What holds after a run in which the generator waits. -/
theorem sound_run (consecutive : Consecutive sizes reply chunkReply)
    (waits : WaitsForUploader sizes reply schedule) :
    ∃ state, run sizes reply schedule = some state ∧ Sound sizes chunkReply state ∧
      (state.iteration = sizes.nbr_of_iterations ∨
        schedule.count .generator ≤ work sizes state) ∧
      state.i ≤ schedule.count .uploader := by
  induction schedule using List.reverseRecOn with
  | nil => exact ⟨fresh, rfl, sound_fresh consecutive, Or.inr (Nat.zero_le _), le_rfl⟩
  | append_singleton schedule thread ih =>
      rcases ih waits.of_append with ⟨state, runs, sound, worked, taken⟩
      rw [run_append_singleton, runs, Option.bind_some]
      cases thread with
      | generator =>
          have finds := waits schedule (List.prefix_refl _) state runs
          rcases Nat.lt_or_eq_of_le sound.iteration_le with unfinished | finished
          · rcases sound.generateReplyGeneric consecutive finds unfinished with
              ⟨after, steps, rest, i_eq, more⟩
            refine ⟨after, steps, rest, Or.inr ?_, ?_⟩
            · rw [List.count_append, List.count_singleton_self]
              rcases worked with finished | worked <;> omega
            · rw [i_eq, List.count_append]
              omega
          · refine ⟨state, if_pos finished.ge, sound, Or.inl finished, ?_⟩
            rw [List.count_append]
            omega
      | uploader =>
          rcases sound.uploadWorker with ⟨after, steps, rest, iteration_eq, progress_eq, i_le⟩
          refine ⟨after, steps, rest, ?_, ?_⟩
          · rw [iteration_eq, work, iteration_eq, progress_eq, ← work]
            rw [List.count_append, show List.count ReplyThread.generator [.uploader] = 0 from rfl]
            exact worked
          · rw [List.count_append, List.count_singleton_self]
            omega

theorem WaitsForUploader.of_prefix {before : List ReplyThread}
    (waits : WaitsForUploader sizes reply schedule) (initial : before <+: schedule) :
    WaitsForUploader sizes reply before :=
  fun earlier first => waits earlier (first.trans initial)

theorem Sound.work_lt (consecutive : Consecutive sizes reply chunkReply)
    (sound : Sound sizes chunkReply state)
    (unfinished : state.iteration < sizes.nbr_of_iterations) :
    work sizes state < generatorSteps sizes := by
  have next := consecutive.next state.iteration unfinished
  have next_le := consecutive.place_le (show state.iteration + 1 ≤ _ from unfinished)
  have inside : (state.iteration + 1) * (2 * sizes.repliesAmount + 4) ≤ generatorSteps sizes :=
    Nat.mul_le_mul_right _ unfinished
  rw [Nat.add_mul] at inside
  have settled := sound.settled
  rw [work]
  rw [Settled] at settled
  split at settled <;> omega

theorem Sound.waiting (sound : Sound sizes chunkReply state)
    (finished : state.iteration = sizes.nbr_of_iterations) : state.progress = .waiting := by
  have settled := sound.settled
  rw [Settled, finished] at settled
  split at settled
  · assumption
  · exact absurd settled.1 (lt_irrefl _)
  · exact absurd settled.1 (lt_irrefl _)

/-- The generator returns, and then all replies have been stored. -/
theorem Sound.complete (consecutive : Consecutive sizes reply chunkReply)
    (sound : Sound sizes chunkReply state)
    (worked : state.iteration = sizes.nbr_of_iterations ∨ generatorSteps sizes ≤ work sizes state) :
    state.iteration = sizes.nbr_of_iterations ∧ stored sizes state = sizes.repliesAmount := by
  have finished : state.iteration = sizes.nbr_of_iterations := by
    rcases worked with finished | worked
    · exact finished
    · by_contra unfinished
      have := sound.work_lt consecutive (lt_of_le_of_ne sound.iteration_le unfinished)
      omega
  exact ⟨finished, by rw [stored, finished, place_last, sound.waiting finished, Nat.add_zero]⟩

/-- A generator that does not wait loses a reply in its next step. -/
theorem waits_of_present (consecutive : Consecutive sizes reply chunkReply)
    (present : ∀ before, before <+: schedule → ∃ state, run sizes reply before = some state ∧
      ∀ k < stored sizes state, state.Present k (chunkReply k)) :
    WaitsForUploader sizes reply schedule := by
  induction schedule using List.reverseRecOn with
  | nil =>
      intro before initial
      exact absurd (List.prefix_nil.mp initial) (by simp)
  | append_singleton schedule thread ih =>
      have waits := ih fun before initial =>
        present before (initial.trans (List.prefix_append schedule [thread]))
      refine waits.append_singleton ?_
      rintro rfl state runs
      rcases sound_run consecutive waits with ⟨same, same_eq, sound, -, -⟩
      obtain rfl : same = state := Option.some.inj (same_eq.symm.trans runs)
      rcases present _ (List.prefix_refl _) with ⟨after, after_eq, kept⟩
      rw [run_append_singleton, runs, Option.bind_some] at after_eq
      by_contra finds
      rcases sound.lost finds after_eq with ⟨k, k_lt, lost⟩
      exact lost (kept k k_lt)

/-- The replies survive exactly the runs in which the generator waits for the second thread. -/
theorem survive_iff (consecutive : Consecutive sizes reply chunkReply)
    (schedule : List ReplyThread) :
    Survive sizes reply chunkReply schedule ↔ WaitsForUploader sizes reply schedule := by
  constructor
  · rintro ⟨present, -⟩
    exact waits_of_present consecutive present
  · intro waits
    refine ⟨?_, ?_⟩
    · intro before initial
      rcases sound_run consecutive (waits.of_prefix initial) with ⟨state, runs, sound, -, -⟩
      exact ⟨state, runs, fun k k_lt => sound.present k_lt⟩
    · intro enough
      rcases sound_run consecutive waits with ⟨state, runs, sound, worked, -⟩
      refine ⟨state, runs, ?_⟩
      rw [← (sound.complete consecutive (worked.imp_right enough.trans)).2]
      exact fun k k_lt => sound.present k_lt

/-- Without the second thread, the replies of all iterations but the last are lost. -/
theorem not_survive_of_alone (consecutive : Consecutive sizes reply chunkReply)
    (several : 1 < sizes.nbr_of_iterations) (alone : schedule.count .uploader = 0)
    (enough : generatorSteps sizes ≤ schedule.count .generator) :
    ¬Survive sizes reply chunkReply schedule := by
  intro survives
  have waits := (survive_iff consecutive schedule).mp survives
  rcases sound_run consecutive waits with ⟨state, runs, sound, worked, taken⟩
  rcases sound.complete consecutive (worked.imp_right enough.trans) with ⟨finished, -⟩
  have before := sound.settled
  rw [Settled, sound.waiting finished, finished] at before
  have next := consecutive.next (sizes.nbr_of_iterations - 2) (by omega)
  have polys_pos := consecutive.polys_pos (sizes.nbr_of_iterations - 2) (by omega)
  rw [show sizes.nbr_of_iterations - 2 + 1 = sizes.nbr_of_iterations - 1 by omega] at next
  omega

/-! ## A second thread that keeps up -/

/-- The steps by which the second thread has taken replies: two for each of them. -/
def taken (state : ReplyThreads Cipher) : ℕ :=
  2 * state.i + if state.ptr.isSome then 1 else 0

theorem Sound.stored_le (consecutive : Consecutive sizes reply chunkReply)
    (sound : Sound sizes chunkReply state) : stored sizes state ≤ sizes.repliesAmount := by
  have place_le := consecutive.place_le sound.iteration_le
  have settled := sound.settled
  rw [stored]
  cases progress_eq : state.progress with
  | waiting => exact place_le
  | freeing i => exact place_le
  | storing current_poly =>
      rw [Settled, progress_eq] at settled
      have next_le := consecutive.place_le (show state.iteration + 1 ≤ _ from settled.1)
      rw [consecutive.next _ settled.1] at next_le
      dsimp only
      omega

/-- No reply is held once all of them have been taken. -/
theorem Sound.ptr_eq_none (sound : Sound sizes chunkReply state)
    (all : stored sizes state ≤ state.i) : state.ptr = none := by
  rcases sound.replies with ⟨-, ptr_eq, -, -⟩ | ⟨repliesArray, -, holds, held⟩
  · exact ptr_eq
  · cases ptr_eq : state.ptr with
    | none => rfl
    | some ptr => exact absurd (holds.inside (held ptr ptr_eq)).2 (not_lt.mpr all)

/-- The second thread goes on by a step as long as a reply is left. -/
theorem Sound.taken_uploadWorker (consecutive : Consecutive sizes reply chunkReply)
    (sound : Sound sizes chunkReply state) {after : ReplyThreads Cipher}
    (steps : state.uploadWorker sizes = some after) :
    taken after = min (taken state + 1) (2 * stored sizes state) := by
  have i_le := sound.i_le
  rw [ReplyThreads.uploadWorker] at steps
  split at steps
  next finished =>
    obtain rfl := Option.some.inj steps
    have all := (sound.stored_le consecutive).trans finished
    rw [taken, sound.ptr_eq_none all, Option.isSome_none, if_neg Bool.false_ne_true]
    omega
  next unfinished =>
    rcases sound.replies with ⟨array_eq, ptr_eq, -, nothing⟩ | ⟨repliesArray, array_eq, holds, held⟩
    · rw [array_eq, ptr_eq] at steps
      obtain rfl := Option.some.inj steps
      rw [taken, ptr_eq, Option.isSome_none, if_neg Bool.false_ne_true]
      omega
    · cases ptr_eq : state.ptr with
      | none =>
          rw [array_eq, ptr_eq] at steps
          rcases Option.map_eq_some_iff.mp steps with ⟨entry, entry_eq, rfl⟩
          rw [taken, taken, ptr_eq]
          rcases Nat.lt_or_ge state.i (stored sizes state) with left | all
          · rcases holds.full state.i le_rfl left with ⟨ptr, here, -⟩
            obtain rfl := Option.some.inj (here.symm.trans entry_eq)
            change 2 * state.i + 1 = min (2 * state.i + 0 + 1) _
            omega
          · have null := holds.null state.i (not_le.mp unfinished) (Or.inr all)
            obtain rfl := Option.some.inj (null.symm.trans entry_eq)
            change 2 * state.i + 0 = min (2 * state.i + 0 + 1) _
            omega
      | some ptr =>
          have left := (holds.inside (held ptr ptr_eq)).2
          rw [ptr_eq] at steps
          rcases Option.bind_eq_some_iff.mp steps with ⟨result, -, steps⟩
          rcases Option.bind_eq_some_iff.mp steps with ⟨heap, -, steps⟩
          rcases Option.bind_eq_some_iff.mp steps with ⟨entries, -, steps⟩
          split at steps
          next =>
            obtain rfl := Option.some.inj steps
            rw [taken, taken, ptr_eq]
            change 2 * (state.i + 1) + 0 = min (2 * state.i + 1 + 1) _
            omega
          next => exact absurd steps (by simp)

/-- A step of the generator stores at most one reply. -/
theorem taken_generateReplyGeneric (consecutive : Consecutive sizes reply chunkReply)
    {after : ReplyThreads Cipher} (steps : state.generateReplyGeneric sizes reply = some after) :
    taken after = taken state ∧ stored sizes after ≤ stored sizes state + 1 := by
  rw [ReplyThreads.generateReplyGeneric] at steps
  split at steps
  next =>
    obtain rfl := Option.some.inj steps
    exact ⟨rfl, Nat.le_succ _⟩
  next unfinished =>
    rw [stored, stored]
    cases progress_eq : state.progress with
    | waiting =>
        rw [progress_eq] at steps
        dsimp only at steps
        split at steps
        all_goals
          obtain rfl := Option.some.inj steps
          exact ⟨rfl, Nat.le_succ _⟩
    | freeing i =>
        rw [progress_eq] at steps
        dsimp only at steps
        split at steps
        next =>
          rcases Option.bind_eq_some_iff.mp steps with ⟨entries, -, steps⟩
          rcases Option.bind_eq_some_iff.mp steps with ⟨entry, -, steps⟩
          cases entry with
          | none =>
              obtain rfl := Option.some.inj steps
              exact ⟨rfl, Nat.le_succ _⟩
          | some ptr =>
              rcases Option.map_eq_some_iff.mp steps with ⟨heap, -, rfl⟩
              exact ⟨rfl, Nat.le_succ _⟩
        next =>
          obtain rfl := Option.some.inj steps
          exact ⟨rfl, Nat.le_succ _⟩
    | storing current_poly =>
        rw [progress_eq] at steps
        dsimp only at steps
        split at steps
        next =>
          rcases Option.bind_eq_some_iff.mp steps with ⟨result, -, steps⟩
          rcases Option.bind_eq_some_iff.mp steps with ⟨entries, -, steps⟩
          dsimp only at steps
          split at steps
          next =>
            obtain rfl := Option.some.inj steps
            exact ⟨rfl, le_rfl⟩
          next => exact absurd steps (by simp)
        next whole =>
          obtain rfl := Option.some.inj steps
          refine ⟨rfl, ?_⟩
          change place sizes (state.iteration + 1) + 0 ≤ place sizes state.iteration + current_poly + 1
          rw [consecutive.next _ (not_le.mp unfinished)]
          omega

/-- Once all replies have been taken, the array only has null pointers. -/
theorem Sound.findsNull_of_taken (sound : Sound sizes chunkReply state)
    (all : stored sizes state ≤ state.i) : state.FindsNull := by
  rintro i repliesArray - array_eq ptr here
  rcases sound.replies with ⟨missing, -, -, -⟩ | ⟨same, same_eq, holds, -⟩
  · rw [array_eq] at missing
    contradiction
  · obtain rfl : repliesArray = same := Option.some.inj (array_eq.symm.trans same_eq)
    have inside := holds.inside here
    omega

/-- The second thread takes two steps before each step of the generator. -/
def keepingUp : ℕ → List ReplyThread
  | 0 => []
  | rounds + 1 => keepingUp rounds ++ [.uploader] ++ [.uploader] ++ [.generator]

theorem count_keepingUp (rounds : ℕ) : (keepingUp rounds).count .generator = rounds := by
  induction rounds with
  | zero => rfl
  | succ rounds ih =>
      rw [keepingUp, List.count_append, List.count_append, List.count_append, ih]
      rfl

/-- A second thread that keeps up takes every reply before the array is looked at again. -/
theorem waits_keepingUp (consecutive : Consecutive sizes reply chunkReply) (rounds : ℕ) :
    WaitsForUploader sizes reply (keepingUp rounds) ∧
      ∀ state, run sizes reply (keepingUp rounds) = some state →
        2 * stored sizes state ≤ taken state + 2 := by
  induction rounds with
  | zero =>
      refine ⟨?_, ?_⟩
      · intro before initial
        exact absurd (List.prefix_nil.mp initial) (by simp)
      · intro state runs
        obtain rfl : fresh = state := Option.some.inj runs
        rw [show stored sizes (fresh : ReplyThreads Cipher) = 0 from consecutive.first]
        exact Nat.zero_le _
  | succ rounds ih =>
      rcases ih with ⟨waits, keeps⟩
      rcases sound_run consecutive waits with ⟨state, runs, sound, -, -⟩
      have behind := keeps state runs
      rcases sound.uploadWorker with ⟨found, finds, foundSound, found_iteration, found_progress, -⟩
      rcases foundSound.uploadWorker with ⟨sent, sends, sentSound, sent_iteration, sent_progress, -⟩
      have found_stored : stored sizes found = stored sizes state := by
        rw [stored, stored, found_iteration, found_progress]
      have sent_stored : stored sizes sent = stored sizes state := by
        rw [stored, sent_iteration, sent_progress, ← stored, found_stored]
      have found_taken := sound.taken_uploadWorker consecutive finds
      have sent_taken := foundSound.taken_uploadWorker consecutive sends
      have all : 2 * stored sizes sent ≤ taken sent := by omega
      have runsSent : run sizes reply (keepingUp rounds ++ [.uploader] ++ [.uploader]) =
          some sent := by
        rw [run_append_singleton, run_append_singleton, runs, Option.bind_some, step, finds,
          Option.bind_some, step, sends]
      have ready : stored sizes sent ≤ sent.i := by
        rw [taken] at all
        split at all <;> omega
      refine ⟨?_, ?_⟩
      · refine ((waits.append_singleton ?_).append_singleton ?_).append_singleton ?_
        · exact fun clash => by contradiction
        · exact fun clash => by contradiction
        · intro _ same same_eq
          obtain rfl : sent = same := Option.some.inj (runsSent.symm.trans same_eq)
          exact sentSound.findsNull_of_taken ready
      · intro after runsAfter
        rw [keepingUp, run_append_singleton, runsSent, Option.bind_some] at runsAfter
        rcases taken_generateReplyGeneric consecutive runsAfter with ⟨taken_eq, stored_le⟩
        omega

end ReplyThreads

end Xpir
