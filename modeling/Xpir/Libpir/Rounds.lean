import Xpir.NFLlib.Arithmetic
import Xpir.ReplyGenerator.ReplyMemory

/-!
# Rounds of queries on an imported database

This file models the calls of the library on a reply generator: the elements of a query are
pushed, a reply is generated from an imported database, the ciphertexts of the reply are
popped, and the query is freed. The generator keeps some of its variables from one round to
the next, and the memory that it allocates differs from round to round.

A round on a generator that has finished other rounds is compared with the same round on a
new generator, in a memory that holds nothing but the database. The blocks of the database
are common to both memories.
-/

namespace Xpir

open ReplyGenerator

/-- What a generator reads of an imported database. -/
structure ImportedDatabase where
  importedDatabasePtr : ℕ
  polysPerElement : ℕ
  beforeImportElementBytesize : ℕ

/-- No pointer is to a block that has not been allocated yet. -/
def PointsInside {Poly Cipher : Type} (heap : Heap (ReplyWord Poly Cipher)) : Prop :=
  ∀ address words, heap.blocks address = some words →
    ∀ target index, ReplyWord.pointer target index ∈ words → target < heap.next

/-- A memory with an imported database. -/
structure DatabaseMemory (Poly Cipher : Type) where
  database : ImportedDatabase
  heap : Heap (ReplyWord Poly Cipher)
  ptr_lt : database.importedDatabasePtr < heap.next
  inside : PointsInside heap

/-- What the client asks for and does in a round. -/
structure Round (Cipher : Type) where
  query : ℕ → ℕ → Cipher
  request : Option (List Cipher)
  /-- Whether the client frees a ciphertext of the reply, or keeps it. -/
  frees : ℕ → Bool

section Import

variable {Poly Cipher : Type}

/-- An element, after some that have been imported. -/
def importElement (state : Heap (ReplyWord Poly Cipher) × List ℕ) (polys : List Poly) :
    Heap (ReplyWord Poly Cipher) × List ℕ :=
  ((allocElement state.1 polys).1, state.2 ++ [(allocElement state.1 polys).2])

def importElements (elements : List (List Poly)) : Heap (ReplyWord Poly Cipher) × List ℕ :=
  elements.foldl importElement (Heap.empty, [])

variable {heap : Heap (ReplyWord Poly Cipher)} {words : List (ReplyWord Poly Cipher)}

theorem PointsInside.alloc (inside : PointsInside heap)
    (below : ∀ target index, ReplyWord.pointer target index ∈ words → target ≤ heap.next) :
    PointsInside (heap.alloc words) := by
  intro address block block_eq target index here
  rw [Heap.next_alloc, Nat.lt_succ_iff]
  by_cases new : address = heap.next
  · rw [new, Heap.blocks_alloc_next] at block_eq
    rw [← Option.some.inj block_eq] at here
    exact below target index here
  · rw [Heap.blocks_alloc_of_ne words new] at block_eq
    exact (inside address block block_eq target index here).le

theorem PointsInside.allocElement (inside : PointsInside heap) (polys : List Poly) :
    PointsInside (ReplyGenerator.allocElement heap polys).1 := by
  have buffer : PointsInside (heap.alloc (polys.map .poly)) := by
    apply inside.alloc
    intro target index here
    rcases List.mem_map.mp here with ⟨poly, -, poly_eq⟩
    exact absurd poly_eq (by simp)
  apply buffer.alloc
  intro target index here
  rcases List.mem_map.mp here with ⟨poly, -, pointer_eq⟩
  rw [ReplyWord.pointer.injEq] at pointer_eq
  rw [Heap.next_alloc, ← pointer_eq.1]
  exact Nat.le_succ _

/-- The blocks of the elements that have been imported are in the memory. -/
structure Imported (state : Heap (ReplyWord Poly Cipher) × List ℕ) : Prop where
  inside : PointsInside state.1
  blocks_lt : ∀ p ∈ state.2, p < state.1.next

theorem Imported.importElement {state : Heap (ReplyWord Poly Cipher) × List ℕ}
    (imported : Imported state) (polys : List Poly) :
    Imported (Xpir.importElement state polys) := by
  refine ⟨imported.inside.allocElement polys, ?_⟩
  intro p p_mem
  show p < state.1.next + 1 + 1
  rcases List.mem_append.mp p_mem with before | new
  · have p_lt := imported.blocks_lt p before
    omega
  · have p_eq : p = state.1.next + 1 := List.mem_singleton.mp new
    omega

theorem imported_importElements (elements : List (List Poly)) :
    Imported (importElements elements : Heap (ReplyWord Poly Cipher) × List ℕ) := by
  apply List.foldlRecOn elements _ (motive := Imported)
  · exact ⟨fun _ _ absent => absurd absent (by simp [Heap.empty]), by simp⟩
  · intro state imported polys _
    exact imported.importElement polys

/-- A database of some elements, in a memory of its own. -/
def importData (elements : List (List Poly)) (polysPerElement beforeImportElementBytesize : ℕ) :
    DatabaseMemory Poly Cipher where
  database := ⟨(importElements elements : Heap (ReplyWord Poly Cipher) × List ℕ).1.next,
    polysPerElement, beforeImportElementBytesize⟩
  heap := (importElements elements).1.alloc ((importElements elements).2.map (.pointer · 0))
  ptr_lt := Nat.lt_succ_self _
  inside := by
    have imported : Imported (importElements elements : Heap (ReplyWord Poly Cipher) × List ℕ) :=
      imported_importElements elements
    apply imported.inside.alloc
    intro target index here
    rcases List.mem_map.mp here with ⟨p, p_mem, pointer_eq⟩
    rw [ReplyWord.pointer.injEq] at pointer_eq
    rw [← pointer_eq.1]
    exact (imported.blocks_lt p p_mem).le

end Import

namespace ReplyRounds

variable {Poly Cipher : Type}

section Calls

variable (crypto : LatticesBasedCryptosystem Poly Cipher) (pirParams : PIRParameters) (fuel : ℕ)
  (database : ImportedDatabase) (generator : ReplyGenerator Poly Cipher)

/-- A generator that no query has been pushed to. -/
def construct (heap : Heap (ReplyWord Poly Cipher)) : ReplyGenerator Poly Cipher where
  heap
  queriesBuf _ _ := none
  currentDimIndex := 0
  currentQueryIndex := 0
  currentMaxNbPolys := 0
  repliesArray := none
  repliesAmount := 0
  nbRepliesToHandle := 0
  currentReply := 0

/-- The ciphertexts of a request are put into a container, which nobody frees. -/
def contain (heap : Heap (ReplyWord Poly Cipher)) :
    Option (List ℕ) → Option (Heap (ReplyWord Poly Cipher) × Option ℕ)
  | none => some (heap, none)
  | some request =>
      (charToLWECipher heap request).map fun container => (container.1, some container.2)

/-- `generateReply`, with or without the ciphertexts of a request. -/
def generateReply (request : Option (List ℕ)) : Option (ReplyGenerator Poly Cipher) :=
  (freeResult { generator with nbRepliesToHandle := 0, currentReply := 0 }).bind fun generator =>
    (crypto.publicParams.computeReplySizeInChunks pirParams
      database.beforeImportElementBytesize).bind fun amount =>
        (contain generator.heap request).bind fun subtract =>
          ReplyGenerator.generateReply crypto pirParams fuel subtract.2
            database.importedDatabasePtr
            { generator with
              heap := subtract.1
              nbRepliesToHandle := amount
              currentMaxNbPolys := database.polysPerElement
              repliesAmount := amount }

/--
The next ciphertext of the reply. The counter is decremented in any case. Waiting for an
entry that is not filled has no result.
-/
def popReply : Option (Option ℕ × ReplyGenerator Poly Cipher) :=
  let counted := { generator with nbRepliesToHandle := wordSub generator.nbRepliesToHandle 1 }
  if generator.nbRepliesToHandle ≤ 0 then some (none, counted)
  else
    generator.repliesArray.bind fun entries =>
      entries[generator.currentReply]?.bind fun entry => entry.map fun reply =>
        (some reply,
          { counted with
            repliesArray := some (entries.set generator.currentReply none)
            currentReply := generator.currentReply + 1 })

/-- The client reads a ciphertext that it has popped, and frees it if it likes. -/
def takeReply (frees : Bool) (reply : ℕ) : Option (Cipher × ReplyGenerator Poly Cipher) :=
  (readCipher generator.heap reply).bind fun cipher =>
    (if frees then generator.heap.free reply else some generator.heap).map fun heap =>
      (cipher, { generator with heap })

/-- `while (popReply(&reply))`, with a number of calls that is enough. -/
def takeReplies (frees : ℕ → Bool) :
    ℕ → ReplyGenerator Poly Cipher → Option (ReplyGenerator Poly Cipher × List Cipher)
  | 0, _ => none
  | calls + 1, generator =>
      (popReply generator).bind fun popped =>
        match popped.1 with
        | none => some (popped.2, [])
        | some reply =>
            (takeReply popped.2 (frees generator.currentReply) reply).bind fun taken =>
              (takeReplies frees calls taken.2).map fun rest => (rest.1, taken.1 :: rest.2)

/-- Each element of a query is received in a block of its own. -/
def pushQueries (query : ℕ → ℕ → Cipher) : Option (ReplyGenerator Poly Cipher) :=
  (queryPlaces pirParams).foldlM (fun generator place =>
    pushQuery pirParams
      { generator with heap := generator.heap.alloc [.cipher (query place.1 place.2)] }
      generator.heap.next) generator

/-- The ciphertexts of a request, in blocks that stay with the caller. -/
def receiveRequest : List Cipher → Heap (ReplyWord Poly Cipher) →
    Heap (ReplyWord Poly Cipher) × List ℕ
  | [], heap => (heap, [])
  | cipher :: ciphers, heap =>
      let rest := receiveRequest ciphers (heap.alloc [.cipher cipher])
      (rest.1, heap.next :: rest.2)

def answer (request : Option (List Cipher)) : Option (ReplyGenerator Poly Cipher) :=
  match request with
  | none => generateReply crypto pirParams fuel database generator none
  | some ciphers =>
      let received := receiveRequest ciphers generator.heap
      generateReply crypto pirParams fuel database { generator with heap := received.1 }
        (some received.2)

/-- A round, with the ciphertexts of its reply. -/
def runRound (round : Round Cipher) : Option (ReplyGenerator Poly Cipher × List Cipher) :=
  (pushQueries pirParams generator round.query).bind fun generator =>
    (answer crypto pirParams fuel database generator round.request).bind fun generator =>
      (takeReplies round.frees (generator.nbRepliesToHandle + 1) generator).bind fun taken =>
        (taken.1.freeQueries pirParams).map fun generator => (generator, taken.2)

/-- Some rounds, one after another. -/
def runRounds : List (Round Cipher) → ReplyGenerator Poly Cipher →
    Option (ReplyGenerator Poly Cipher × List (List Cipher))
  | [], generator => some (generator, [])
  | round :: rounds, generator =>
      (runRound crypto pirParams fuel database generator round).bind fun first =>
        (runRounds rounds first.1).map fun rest => (rest.1, first.2 :: rest.2)

end Calls

/-! ## A round on a new generator and on a used one -/

variable {names : Renaming} {kept : ℕ → Option (List (ReplyWord Poly Cipher))}
  {pirParams : PIRParameters} {generator other : ReplyGenerator Poly Cipher}

section Pushing

theorem pushQueries_copy (waiting : Waiting names kept pirParams generator other)
    (query : ℕ → ℕ → Cipher) :
    Lockstep (Waiting names kept pirParams) (pushQueries pirParams generator query)
      (pushQueries pirParams other query) := by
  apply Lockstep.foldlM waiting
  intro generator other place _ waiting
  have memory := waiting.memory
  rw [← memory.move_next]
  apply pushQuery_copy _ memory.base_le
  exact { waiting with memory := alloc_cipher_copy memory (query place.1 place.2) }

theorem receiveRequest_copy (ciphers : List Cipher) {heap copy : Heap (ReplyWord Poly Cipher)}
    (copies : names.Copies kept heap copy) :
    SameBlocks names (names.Copies kept) (receiveRequest ciphers heap)
      (receiveRequest ciphers copy) := by
  induction ciphers generalizing heap copy with
  | nil => exact ⟨copies, rfl, by simp [receiveRequest]⟩
  | cons cipher ciphers ih =>
      have rest := ih (alloc_cipher_copy copies cipher)
      refine ⟨rest.states, ?_, ?_⟩
      · simp only [receiveRequest, List.map_cons]
        rw [copies.move_next, ← rest.blocks]
      · intro address address_mem
        rcases List.mem_cons.mp address_mem with first | later
        · rw [first]
          exact copies.base_le
        · exact rest.above address later

end Pushing

section Generating

variable (crypto : LatticesBasedCryptosystem Poly Cipher) (fuel : ℕ) {database : ImportedDatabase}

theorem computeReplySizeInChunks_lt {params : PublicParameters} {bytes amount : ℕ}
    (announced : params.computeReplySizeInChunks pirParams bytes = some amount) :
    amount < 2 ^ 64 := by
  have range : ∀ value result : ℕ, toUnsigned value = some result → result < 2 ^ 64 := by
    intro value result returns
    rw [toUnsigned] at returns
    split at returns
    · rw [← Option.some.inj returns]
      omega
    · exact absurd returns (by simp)
  rcases exists_of_levelLoop announced with ⟨numbers, first_eq, next_eq, rfl⟩
  cases levels : pirParams.d - 1 with
  | zero => exact range _ _ first_eq
  | succ level => exact range _ _ (next_eq level (by omega))

theorem contain_copy {heap copy : Heap (ReplyWord Poly Cipher)}
    (copies : names.Copies kept heap copy) {request : Option (List ℕ)}
    (above : ∀ ciphers, request = some ciphers → ∀ address ∈ ciphers, names.base ≤ address) :
    Lockstep (fun subtract next => names.Copies kept subtract.1 next.1 ∧
        next.2 = subtract.2.map names.move)
      (contain heap request) (contain copy (request.map (List.map names.move))) := by
  cases request with
  | none => exact .some ⟨copies, rfl⟩
  | some ciphers =>
      apply (charToLWECipher_copy copies (above ciphers rfl)).map
      intro container next same
      exact ⟨same.states, congrArg some same.block⟩

theorem generateReply_copy (waiting : Waiting names kept pirParams generator other)
    (below : database.importedDatabasePtr < names.base) {request : Option (List ℕ)}
    (above : ∀ ciphers, request = some ciphers → ∀ address ∈ ciphers, names.base ≤ address) :
    Lockstep (Replying names kept pirParams)
      (generateReply crypto pirParams fuel database generator request)
      (generateReply crypto pirParams fuel database other
        (request.map (List.map names.move))) := by
  have drained : Drained { generator with nbRepliesToHandle := 0, currentReply := 0 } :=
    waiting.drained
  have copyDrained : Drained { other with nbRepliesToHandle := 0, currentReply := 0 } :=
    waiting.copyDrained
  rw [generateReply, generateReply, drained.freeResult_eq, copyDrained.freeResult_eq,
    Option.bind_some, Option.bind_some]
  apply Lockstep.bind_same
  intro amount announced
  apply (contain_copy waiting.memory above).bind
  rintro ⟨heap, container⟩ ⟨copy, copyContainer⟩ ⟨copies, rfl⟩
  have started : Replying names kept pirParams
      { generator with
        heap
        repliesArray := none
        nbRepliesToHandle := amount
        currentReply := 0
        currentMaxNbPolys := database.polysPerElement
        repliesAmount := amount }
      { other with
        heap := copy
        repliesArray := none
        nbRepliesToHandle := amount
        currentReply := 0
        currentMaxNbPolys := database.polysPerElement
        repliesAmount := amount } :=
    { waiting with
      memory := copies
      currentMaxNbPolys := rfl
      repliesArray := ⟨by simp, rfl, by simp⟩
      repliesAmount := rfl
      repliesAmount_lt := computeReplySizeInChunks_lt announced
      nbRepliesToHandle := rfl
      copyReplies := rfl
      currentReply := rfl
      copyReply := rfl }
  have generated := ReplyGenerator.generateReply_copy crypto fuel container started rfl
    database.importedDatabasePtr
  rw [names.move_of_lt below] at generated
  exact generated

theorem answer_copy (waiting : Waiting names kept pirParams generator other)
    (below : database.importedDatabasePtr < names.base) (request : Option (List Cipher)) :
    Lockstep (Replying names kept pirParams)
      (answer crypto pirParams fuel database generator request)
      (answer crypto pirParams fuel database other request) := by
  cases request with
  | none => exact generateReply_copy crypto fuel waiting below (by simp)
  | some ciphers =>
      have received := receiveRequest_copy ciphers waiting.memory
      simp only [answer]
      rw [received.blocks]
      have holding : Waiting names kept pirParams
          { generator with heap := (receiveRequest ciphers generator.heap).1 }
          { other with heap := (receiveRequest ciphers other.heap).1 } :=
        { waiting with memory := received.states }
      apply generateReply_copy crypto fuel holding below
      intro addresses addresses_eq address address_mem
      rw [← Option.some.inj addresses_eq] at address_mem
      exact received.above address address_mem

end Generating

section Popping

/-- The same replies have been popped from two generators. -/
structure Popping (names : Renaming) (kept : ℕ → Option (List (ReplyWord Poly Cipher)))
    (pirParams : PIRParameters) (generator copy : ReplyGenerator Poly Cipher) : Prop
    extends Receiving names kept pirParams generator copy where
  repliesArray : SameReplies names generator.repliesAmount generator.repliesArray copy.repliesArray
  repliesAmount : copy.repliesAmount = generator.repliesAmount
  repliesAmount_lt : generator.repliesAmount < 2 ^ 64
  nbRepliesToHandle : copy.nbRepliesToHandle = generator.nbRepliesToHandle
  currentReply : copy.currentReply = generator.currentReply
  remaining : generator.currentReply + generator.nbRepliesToHandle = generator.repliesAmount
  popped : ∀ entries, generator.repliesArray = some entries → ∀ i < generator.currentReply,
    entries[i]? = some none

theorem popping_of_replying (replying : Replying names kept pirParams generator other) :
    Popping names kept pirParams generator other :=
  { replying with
    nbRepliesToHandle := replying.copyReplies
    currentReply := replying.copyReply.trans replying.currentReply.symm
    remaining := by rw [replying.currentReply, replying.nbRepliesToHandle, Nat.zero_add]
    popped := by
      intro entries _ i i_lt
      rw [replying.currentReply] at i_lt
      exact absurd i_lt (Nat.not_lt_zero i) }

/-- All entries are null pointers when no reply is left. -/
theorem Popping.waiting (popping : Popping names kept pirParams generator other)
    (finished : generator.nbRepliesToHandle = 0) :
    Waiting names kept pirParams generator other := by
  have drained : generator.Drained := by
    intro entries present
    have length := popping.repliesArray.length entries present
    apply List.ext_getElem?
    intro i
    rw [List.getElem?_replicate]
    have remaining := popping.remaining
    split
    · exact popping.popped entries present i (by omega)
    · exact List.getElem?_eq_none (by omega)
  refine { popping with drained, copyDrained := ?_ }
  intro entries present
  have renamed := popping.repliesArray.entries
  rw [present] at renamed
  rcases Option.map_eq_some_iff.mp renamed.symm with ⟨first, first_eq, rfl⟩
  rw [drained first first_eq, List.map_replicate, Option.map_none, popping.repliesAmount]

/-- Both generators have popped a reply. -/
structure SamePopped (names : Renaming) (kept : ℕ → Option (List (ReplyWord Poly Cipher)))
    (pirParams : PIRParameters) (popped next : Option ℕ × ReplyGenerator Poly Cipher) :
    Prop where
  popping : Popping names kept pirParams popped.2 next.2
  reply : ∃ reply, popped.1 = some reply ∧ next.1 = some (names.move reply) ∧ names.base ≤ reply

theorem popReply_copy (popping : Popping names kept pirParams generator other)
    (more : 0 < generator.nbRepliesToHandle) :
    Lockstep (SamePopped names kept pirParams) (popReply generator) (popReply other) := by
  have remaining := popping.remaining
  have fits := popping.repliesAmount_lt
  have rest : wordSub generator.nbRepliesToHandle 1 = generator.nbRepliesToHandle - 1 :=
    wordSub_eq_sub more (by omega)
  simp only [popReply]
  rw [popping.nbRepliesToHandle, if_neg (Nat.not_le.mpr more), if_neg (Nat.not_le.mpr more),
    popping.repliesArray.entries, popping.currentReply, rest]
  apply Lockstep.bind_map
  intro entries present
  rw [List.getElem?_map]
  apply Lockstep.bind_map
  intro entry here
  cases entry with
  | none => exact .none
  | some reply =>
      have inside := List.mem_of_getElem? here
      refine .some ⟨?_, reply, rfl, rfl, popping.repliesArray.above entries present reply inside⟩
      refine { popping with
        repliesArray := ⟨?_, ?_, ?_⟩
        nbRepliesToHandle := rfl
        currentReply := rfl
        remaining := ?_
        popped := ?_ }
      · intro after after_eq
        rw [← Option.some.inj after_eq, List.length_set,
          popping.repliesArray.length entries present]
      · rw [Option.map_some, List.map_set, Option.map_none]
      · intro after after_eq other other_mem
        rw [← Option.some.inj after_eq] at other_mem
        have before := (List.mem_or_eq_of_mem_set other_mem).resolve_right (by simp)
        exact popping.repliesArray.above entries present other before
      · show generator.currentReply + 1 + (generator.nbRepliesToHandle - 1) =
          generator.repliesAmount
        omega
      · intro after after_eq i i_lt
        rw [← Option.some.inj after_eq, List.getElem?_set]
        split
        · rename_i last
          have filled := (List.getElem?_eq_some_iff.mp here).1
          rw [if_pos (last ▸ filled)]
        · rename_i earlier
          exact popping.popped entries present i
            (lt_of_le_of_ne (Nat.le_of_lt_succ i_lt) (Ne.symm earlier))

theorem takeReply_copy (popping : Popping names kept pirParams generator other) (frees : Bool)
    {reply : ℕ} (above : names.base ≤ reply) :
    Lockstep (fun taken next => next.1 = taken.1 ∧ Popping names kept pirParams taken.2 next.2)
      (takeReply generator frees reply) (takeReply other frees (names.move reply)) := by
  have memory := popping.memory
  rw [takeReply, takeReply, readCipher_copy memory]
  apply Lockstep.bind_same
  intro cipher _
  have freed : Lockstep (names.Copies kept)
      (if frees then generator.heap.free reply else some generator.heap)
      (if frees then other.heap.free (names.move reply) else some other.heap) := by
    split
    · exact memory.free above
    · exact .some memory
  apply freed.map
  intro heap copy copies
  exact ⟨rfl, { popping with memory := copies }⟩

/-- The generators wait for the same query, after the same replies. -/
structure SameResult (names : Renaming) (kept : ℕ → Option (List (ReplyWord Poly Cipher)))
    (pirParams : PIRParameters) (taken next : ReplyGenerator Poly Cipher × List Cipher) :
    Prop where
  waiting : Waiting names kept pirParams taken.1 next.1
  replies : next.2 = taken.2

theorem takeReplies_copy (frees : ℕ → Bool) (calls : ℕ)
    (popping : Popping names kept pirParams generator other) :
    Lockstep (SameResult names kept pirParams) (takeReplies frees calls generator)
      (takeReplies frees calls other) := by
  induction calls generalizing generator other with
  | zero => exact .none
  | succ calls ih =>
      rw [takeReplies, takeReplies]
      by_cases finished : generator.nbRepliesToHandle = 0
      · have waiting := popping.waiting finished
        simp only [popReply, popping.nbRepliesToHandle, finished, le_refl, if_true,
          Option.bind_some]
        exact .some ⟨{ waiting with }, rfl⟩
      · apply (popReply_copy popping (Nat.pos_of_ne_zero finished)).bind
        intro popped next same
        rcases same.reply with ⟨reply, popped_eq, next_eq, above⟩
        simp only [popped_eq, next_eq, popping.currentReply]
        apply (takeReply_copy same.popping _ above).bind
        intro taken takenCopy ⟨cipher_eq, popping⟩
        apply (ih popping).map
        intro rest restCopy result
        exact ⟨result.waiting, by rw [result.replies, cipher_eq]⟩

end Popping

section Rounds

variable (crypto : LatticesBasedCryptosystem Poly Cipher) (fuel : ℕ)

theorem runRound_copy {database : ImportedDatabase} (round : Round Cipher)
    (waiting : Waiting names kept pirParams generator other)
    (below : database.importedDatabasePtr < names.base) :
    Lockstep (SameResult names kept pirParams)
      (runRound crypto pirParams fuel database generator round)
      (runRound crypto pirParams fuel database other round) := by
  rw [runRound, runRound]
  apply (pushQueries_copy waiting round.query).bind
  intro generator other waiting
  apply (answer_copy crypto fuel waiting below round.request).bind
  intro generator other replying
  rw [replying.copyReplies]
  apply (takeReplies_copy round.frees _ (popping_of_replying replying)).bind
  intro taken next result
  apply (freeQueries_copy result.waiting).map
  intro generator other waiting
  exact ⟨waiting, result.replies⟩

/-- A generator between two rounds. The blocks of the database are as they were. -/
structure Idle (memory : DatabaseMemory Poly Cipher) (pirParams : PIRParameters)
    (generator : ReplyGenerator Poly Cipher) : Prop where
  next_le : memory.heap.next ≤ generator.heap.next
  unchanged : ∀ address < memory.heap.next,
    generator.heap.blocks address = memory.heap.blocks address
  queries : ∀ i < pirParams.d, ∀ j < pirParams.n i, generator.queriesBuf i j = none
  currentDimIndex : generator.currentDimIndex = 0
  currentQueryIndex : generator.currentQueryIndex = 0
  drained : generator.Drained

variable {memory : DatabaseMemory Poly Cipher}

theorem drained_construct (heap : Heap (ReplyWord Poly Cipher)) : (construct heap).Drained :=
  fun _ present => absurd present (by simp [construct])

theorem idle_construct : Idle memory pirParams (construct memory.heap) where
  next_le := le_rfl
  unchanged _ _ := rfl
  queries _ _ _ _ := rfl
  currentDimIndex := rfl
  currentQueryIndex := rfl
  drained := drained_construct memory.heap

/-- The blocks that a used generator allocates have larger addresses. -/
def usedNames (memory : DatabaseMemory Poly Cipher) (generator : ReplyGenerator Poly Cipher) :
    Renaming :=
  ⟨memory.heap.next, generator.heap.next - memory.heap.next⟩

theorem pointsBelow (generator : ReplyGenerator Poly Cipher) :
    (usedNames memory generator).PointsBelow memory.heap.blocks := by
  rintro address words block word word_mem target ⟨index, rfl⟩
  exact memory.inside address words block target index word_mem

theorem Idle.waiting (idle : Idle memory pirParams generator) :
    Waiting (usedNames memory generator) memory.heap.blocks pirParams (construct memory.heap)
      generator where
  memory := by
    apply Renaming.copies_of_kept rfl _ (pointsBelow generator) idle.unchanged
    show generator.heap.next = memory.heap.next + (generator.heap.next - memory.heap.next)
    have next_le := idle.next_le
    omega
  queries i i_lt j j_lt := idle.queries i i_lt j j_lt
  queries_above i i_lt j j_lt query stored := absurd stored (by simp [construct])
  currentDimIndex := idle.currentDimIndex
  currentQueryIndex := idle.currentQueryIndex
  drained := drained_construct memory.heap
  copyDrained := idle.drained

/-- A round on an idle generator does the same as one on a new generator. -/
theorem runRound_of_idle (idle : Idle memory pirParams generator) (round : Round Cipher) :
    Lockstep (fun fresh used => used.2 = fresh.2 ∧ Idle memory pirParams used.1)
      (runRound crypto pirParams fuel memory.database (construct memory.heap) round)
      (runRound crypto pirParams fuel memory.database generator round) := by
  apply (runRound_copy crypto fuel round idle.waiting memory.ptr_lt).mono
  intro fresh used _ used_eq result
  have copies := result.waiting.memory
  have next_le : memory.heap.next ≤ fresh.1.heap.next := copies.base_le
  rcases Option.bind_eq_some_iff.mp used_eq with ⟨pushed, -, used_eq⟩
  rcases Option.bind_eq_some_iff.mp used_eq with ⟨answered, -, used_eq⟩
  rcases Option.bind_eq_some_iff.mp used_eq with ⟨taken, -, used_eq⟩
  rcases Option.map_eq_some_iff.mp used_eq with ⟨after, frees, rfl⟩
  have indices := indices_freeQueries frees
  refine ⟨result.replies, ?_, ?_, ?_, indices.1, indices.2, result.waiting.copyDrained⟩
  · rw [copies.next_eq]
    omega
  · intro address below
    exact copies.copy_below (pointsBelow generator) below
  · intro i i_lt j j_lt
    exact queriesBuf_freeQueries frees i_lt j_lt

theorem runRounds_of_idle (idle : Idle memory pirParams generator)
    (rounds : List (Round Cipher)) :
    (runRounds crypto pirParams fuel memory.database rounds generator).map Prod.snd =
        rounds.mapM (fun round =>
          (runRound crypto pirParams fuel memory.database (construct memory.heap) round).map
            Prod.snd) ∧
      ∀ final, runRounds crypto pirParams fuel memory.database rounds generator = some final →
        Idle memory pirParams final.1 := by
  induction rounds generalizing generator with
  | nil =>
      refine ⟨rfl, ?_⟩
      intro final final_eq
      rw [← Option.some.inj final_eq]
      exact idle
  | cons round rounds ih =>
      have lockstep := runRound_of_idle crypto fuel idle round
      rw [runRounds, List.mapM_cons]
      generalize runRound crypto pirParams fuel memory.database generator round = used at lockstep ⊢
      generalize runRound crypto pirParams fuel memory.database (construct memory.heap) round =
        fresh at lockstep ⊢
      cases lockstep with
      | none => exact ⟨rfl, fun _ fails => absurd fails (by simp)⟩
      | @some fresh used related =>
          rcases ih related.2 with ⟨replies, idle⟩
          refine ⟨?_, ?_⟩
          · rw [Option.bind_some, Option.map_map, ← replies, Option.map_some, related.1]
            cases runRounds crypto pirParams fuel memory.database rounds used.1 <;> rfl
          · intro final final_eq
            rcases Option.map_eq_some_iff.mp final_eq with ⟨rest, rest_eq, rfl⟩
            exact idle rest rest_eq

/--
The replies of some rounds on one generator are those that a new generator gives in a round
of its own, with nothing but the database in memory. The blocks of the database are not
changed by any number of rounds.
-/
theorem runRounds_eq_newGenerators (memory : DatabaseMemory Poly Cipher)
    (pirParams : PIRParameters) (rounds : List (Round Cipher)) :
    (runRounds crypto pirParams fuel memory.database rounds (construct memory.heap)).map
          Prod.snd =
        rounds.mapM (fun round =>
          (runRound crypto pirParams fuel memory.database (construct memory.heap) round).map
            Prod.snd) ∧
      ∀ final,
        runRounds crypto pirParams fuel memory.database rounds (construct memory.heap) =
            some final →
          ∀ address < memory.heap.next,
            final.1.heap.blocks address = memory.heap.blocks address := by
  have start : Idle memory pirParams (construct memory.heap) := idle_construct
  rcases runRounds_of_idle crypto fuel start rounds with ⟨replies, idle⟩
  exact ⟨replies, fun final final_eq => (idle final final_eq).unchanged⟩

end Rounds

section Example

/-- Sums of products without encryption, with plaintexts and ciphertexts of one byte. -/
def sums : LatticesBasedCryptosystem ℕ ℕ where
  zero := 0
  mulandadd rop poly cipher := rop + poly * cipher
  sub := Nat.sub
  deserializeDataNFL buffers _ := buffers
  absorptionBitsize := 8
  ciphertextBitsize := 8

def square : PIRParameters where
  alpha := 1
  d := 2
  n _ := 2
  alpha_pos := Nat.one_pos
  d_pos := Nat.two_pos
  n_pos _ _ := Nat.two_pos
  n_lt _ _ := by decide

/-- Two rounds for the elements 7 and 9 of a database, the second one with a request. -/
example :
    let memory := importData [[3], [5], [7], [9]] 1 1
    (runRounds sums square 2 memory.database
      [⟨fun i j => if i = j then 1 else 0, none, fun _ => true⟩,
        ⟨fun _ j => j, some [2], fun _ => false⟩] (construct memory.heap)).map Prod.snd =
      some [[7], [7]] := by
  decide +kernel

end Example

end ReplyRounds

end Xpir
