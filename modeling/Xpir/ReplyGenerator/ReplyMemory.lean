import Xpir.Foundations.HeapRenaming
import Xpir.ReplyGenerator.ExtractedSizes

/-!
# The memory of a reply generator

This file models the generation of a reply with the blocks that it allocates, writes and
frees. The elements of the database are read from blocks that the generator does not own.
The elements of the later levels have the same type, are allocated at the end of a level,
and are freed at the end of the next one, as are the ciphertexts they have been cut from.

The generation is compared with one in a copy of the memory: it does the same for any
addresses of its own blocks, and leaves all blocks alone that were there before.
-/

namespace Xpir

/-- A word of the memory. A pointer is a place in a block. -/
inductive ReplyWord (Poly Cipher : Type) where
  | poly (value : Poly)
  | cipher (value : Cipher)
  /-- The quotients that Shoup's multiplication uses for the words of a ciphertext. -/
  | quotients (value : Cipher)
  | pointer (address index : ℕ)

namespace ReplyWord

variable {Poly Cipher : Type}

def poly? : ReplyWord Poly Cipher → Option Poly
  | .poly value => some value
  | _ => none

def cipher? : ReplyWord Poly Cipher → Option Cipher
  | .cipher value => some value
  | _ => none

def quotients? : ReplyWord Poly Cipher → Option Cipher
  | .quotients value => some value
  | _ => none

def pointer? : ReplyWord Poly Cipher → Option (ℕ × ℕ)
  | .pointer address index => some (address, index)
  | _ => none

instance : PointerWord (ReplyWord Poly Cipher) where
  pointsTo word address := ∃ index, word = .pointer address index
  rename move word :=
    match word with
    | .pointer address index => .pointer (move address) index
    | other => other
  rename_fixed move word fixed := by
    cases word with
    | pointer address index => exact congrArg (pointer · index) (fixed address ⟨index, rfl⟩)
    | poly value => rfl
    | cipher value => rfl
    | quotients value => rfl

end ReplyWord

/-- The variables of a generator that its calls read. -/
structure ReplyGenerator (Poly Cipher : Type) where
  heap : Heap (ReplyWord Poly Cipher)
  /-- The blocks of a query element and of its quotients. -/
  queriesBuf : ℕ → ℕ → Option (ℕ × ℕ)
  currentDimIndex : ℕ
  currentQueryIndex : ℕ
  currentMaxNbPolys : ℕ
  /-- The array, with the blocks of the replies that it holds. -/
  repliesArray : Option (List (Option ℕ))
  repliesAmount : ℕ
  nbRepliesToHandle : ℕ
  currentReply : ℕ

namespace ReplyGenerator

variable {Poly Cipher : Type}

section Access

variable (heap : Heap (ReplyWord Poly Cipher))

def readCipher (address : ℕ) : Option Cipher := (heap.read address 0).bind ReplyWord.cipher?

def readQuotients (address : ℕ) : Option Cipher :=
  (heap.read address 0).bind ReplyWord.quotients?

def readPointer (address index : ℕ) : Option (ℕ × ℕ) :=
  (heap.read address index).bind ReplyWord.pointer?

/-- `p[index]` of an element, which points to a place in the block of its polynomials. -/
def readPoly (p index : ℕ) : Option Poly :=
  (readPointer heap p index).bind fun place =>
    (heap.read place.1 place.2).bind ReplyWord.poly?

/-- The polynomials of an element, and the block `p` of pointers to them. -/
def allocElement (polys : List Poly) : Heap (ReplyWord Poly Cipher) × ℕ :=
  let buffer := heap.alloc (polys.map .poly)
  (buffer.alloc ((List.range polys.length).map fun poly => .pointer heap.next poly), buffer.next)

/-- Only a pointer to the start of a block can be freed. -/
def freePointer (place : ℕ × ℕ) : Option (Heap (ReplyWord Poly Cipher)) :=
  if place.2 = 0 then heap.free place.1 else none

end Access

section Queries

variable (pirParams : PIRParameters) (generator : ReplyGenerator Poly Cipher)

/-- The places of a query, in the order in which its elements are pushed. -/
def queryPlaces : List (ℕ × ℕ) :=
  (List.range pirParams.d).flatMap fun dim =>
    (List.range (pirParams.n dim)).map fun nbr => (dim, nbr)

/-- Both indices after an element has been pushed. -/
def advance : ReplyGenerator Poly Cipher :=
  if pirParams.n generator.currentDimIndex ≤ generator.currentQueryIndex + 1 then
    { generator with
      currentQueryIndex := 0
      currentDimIndex := generator.currentDimIndex + 1 }
  else { generator with currentQueryIndex := generator.currentQueryIndex + 1 }

/-- An entry of the buffer of queries is replaced, in another memory. -/
def setQuery (heap : Heap (ReplyWord Poly Cipher)) (place : ℕ × ℕ) (query : Option (ℕ × ℕ)) :
    ReplyGenerator Poly Cipher :=
  { generator with
    heap
    queriesBuf := Function.update generator.queriesBuf place.1
      (Function.update (generator.queriesBuf place.1) place.2 query) }

/-- The element is stored, not copied. Its quotients have a block of their own. -/
def pushQuery (rawQuery : ℕ) : Option (ReplyGenerator Poly Cipher) :=
  let dim := generator.currentDimIndex
  let nbr := generator.currentQueryIndex
  if dim < pirParams.d ∧ nbr < pirParams.n dim ∧ nbr < 2 ^ 31 then
    (readCipher generator.heap rawQuery).map fun query =>
      advance pirParams
        (generator.setQuery (generator.heap.alloc [.quotients query]) (dim, nbr)
          (some (rawQuery, generator.heap.next)))
  else none

/-- Both blocks of an element are freed, if there is one. -/
def freeQuery (place : ℕ × ℕ) : Option (ReplyGenerator Poly Cipher) :=
  match generator.queriesBuf place.1 place.2 with
  | none => some generator
  | some query =>
      (generator.heap.free query.1).bind fun heap => (heap.free query.2).map fun heap =>
        generator.setQuery heap place none

def freeQueries : Option (ReplyGenerator Poly Cipher) :=
  ((queryPlaces pirParams).foldlM freeQuery generator).map fun generator =>
    { generator with currentQueryIndex := 0, currentDimIndex := 0 }

def freeReply (entries : List (Option ℕ)) (heap : Heap (ReplyWord Poly Cipher)) (i : ℕ) :
    Option (Heap (ReplyWord Poly Cipher)) :=
  entries[i]?.bind fun entry =>
    match entry with
    | none => some heap
    | some reply => heap.free reply

/-- The replies that have not been popped are freed, and the array. -/
def freeResult : Option (ReplyGenerator Poly Cipher) :=
  match generator.repliesArray with
  | none => some generator
  | some entries =>
      ((List.range generator.repliesAmount).foldlM (freeReply entries) generator.heap).map
        fun heap => { generator with heap, repliesArray := none }

end Queries

section Replies

variable (crypto : LatticesBasedCryptosystem Poly Cipher) (pirParams : PIRParameters) (fuel : ℕ)
  (subtract : Option ℕ) (queriesBuf : ℕ → ℕ → Option (ℕ × ℕ))

/-- `mulandadd` on the blocks of its arguments. -/
def mulandadd (heap : Heap (ReplyWord Poly Cipher)) (rop p : ℕ) (query : ℕ × ℕ)
    (current_poly : ℕ) : Option (Heap (ReplyWord Poly Cipher)) :=
  (readCipher heap rop).bind fun result => (readPoly heap p current_poly).bind fun poly =>
    (readCipher heap query.1).bind fun cipher => (readQuotients heap query.2).bind fun _ =>
      heap.write rop 0 (.cipher (crypto.mulandadd result poly cipher))

/-- The elements of one round of the loop over a block, which begins at `data`. -/
def absorbRange (lvl in_data data rop current_poly offset count : ℕ)
    (heap : Heap (ReplyWord Poly Cipher)) : Option (Heap (ReplyWord Poly Cipher)) :=
  (List.range count).foldlM (fun heap ggg =>
    (readPointer heap in_data (data + (offset + ggg))).bind fun p =>
      (queriesBuf lvl (offset + ggg)).bind fun query =>
        mulandadd crypto heap rop p.1 query current_poly) heap

/-- The container of a request points to its ciphertexts. An `int` counts them. -/
def charToLWECipher (heap : Heap (ReplyWord Poly Cipher)) (c : List ℕ) :
    Option (Heap (ReplyWord Poly Cipher) × ℕ) :=
  if c.length < 2 ^ 31 then some (heap.alloc (c.map (.pointer · 0)), heap.next) else none

/-- The request is subtracted in the last round of the first level. -/
def subtractRequest (lvl rop current_poly next : ℕ) (heap : Heap (ReplyWord Poly Cipher)) :
    Option (Heap (ReplyWord Poly Cipher)) :=
  match subtract with
  | none => some heap
  | some request =>
      if lvl = 0 ∧ pirParams.n lvl ≤ next then
        (readCipher heap rop).bind fun result =>
          (readPointer heap request current_poly).bind fun place =>
            (readCipher heap place.1).bind fun cipher =>
              heap.write rop 0 (.cipher (crypto.sub result cipher))
      else some heap

/-- The result is stored in the last round of the last level. -/
def storeReply (lvl rop current_poly next : ℕ) (repliesArray : Option (List (Option ℕ))) :
    Option (Option (List (Option ℕ))) :=
  if lvl = pirParams.d - 1 ∧ pirParams.n lvl ≤ next then
    repliesArray.bind fun entries =>
      if current_poly < entries.length then some (some (entries.set current_poly (some rop)))
      else none
  else some repliesArray

/-- A round of the loop on one polynomial. The offset is an `unsigned int`. -/
def absorbRound (lvl in_data data rop current_poly : ℕ) (state : ℕ × ReplyGenerator Poly Cipher) :
    Option (ℕ × ReplyGenerator Poly Cipher) :=
  let next := (state.1 + 200) % 2 ^ 32
  (absorbRange crypto state.2.queriesBuf lvl in_data data rop current_poly state.1
    (min 200 (pirParams.n lvl - state.1)) state.2.heap).bind fun heap =>
      (subtractRequest crypto pirParams subtract lvl rop current_poly next heap).bind fun heap =>
        (storeReply pirParams lvl rop current_poly next state.2.repliesArray).map
          fun repliesArray => (next, { state.2 with heap, repliesArray })

/-- The result of one polynomial of one block, in a new block of memory. -/
def absorb (lvl in_data data current_poly : ℕ) (generator : ReplyGenerator Poly Cipher) :
    Option (ReplyGenerator Poly Cipher) :=
  (whileLoop (fun state => state.1 < pirParams.n lvl)
    (absorbRound crypto pirParams subtract lvl in_data data generator.heap.next current_poly) fuel
    (0, { generator with heap := generator.heap.alloc [.cipher crypto.zero] })).map Prod.snd

/-- `generateReply` on one block of elements, with the blocks of memory of the results. -/
def replyBlock (lvl in_data j : ℕ) (generator : ReplyGenerator Poly Cipher) :
    Option (ReplyGenerator Poly Cipher × List ℕ) :=
  if generator.currentMaxNbPolys < 2 ^ 32 then
    (List.range generator.currentMaxNbPolys).foldlM (fun state current_poly =>
      (absorb crypto pirParams fuel subtract lvl in_data (pirParams.n lvl * j) current_poly
        state.1).map fun generator => (generator, state.2 ++ [state.1.heap.next])) (generator, [])
  else none

def replyBlocks (lvl in_data : ℕ) (generator : ReplyGenerator Poly Cipher) :
    Option (ReplyGenerator Poly Cipher × List (List ℕ)) :=
  (List.range (pirParams.nbElements (lvl + 1))).foldlM (fun state j =>
    (replyBlock crypto pirParams fuel subtract lvl in_data j state.1).map fun block =>
      (block.1, state.2 ++ [block.2])) (generator, [])

/-- The elements of a level are freed, with an `int` for their number. -/
def freeElements (in_data old_reply_elt_nbr : ℕ) (heap : Heap (ReplyWord Poly Cipher)) :
    Option (Heap (ReplyWord Poly Cipher)) :=
  if old_reply_elt_nbr < 2 ^ 31 then
    ((List.range old_reply_elt_nbr).foldlM (fun heap j =>
      (readPointer heap in_data j).bind fun p => (readPointer heap p.1 0).bind fun start =>
        (freePointer heap start).bind fun heap => freePointer heap p) heap).bind
          fun heap => heap.free in_data
  else none

/-- `deserializeDataNFL` on some ciphertexts. -/
def deserializeElement (heap : Heap (ReplyWord Poly Cipher)) (ciphers : List ℕ) :
    Option (Heap (ReplyWord Poly Cipher) × ℕ) :=
  (ciphers.mapM (readCipher heap)).map fun buffers =>
    let polyNumber := crypto.publicParams.deserializedPolys buffers.length crypto.ciphertextBitsize
    allocElement heap ((List.range polyNumber).map
      (crypto.deserializeDataNFL (fun k => buffers.getD k crypto.zero) buffers.length))

def fromResulttoInData (inter_reply : List (List ℕ)) (generator : ReplyGenerator Poly Cipher) :
    Option (ReplyGenerator Poly Cipher × ℕ) :=
  (inter_reply.foldlM (fun state ciphers =>
    (deserializeElement crypto state.1 ciphers).map fun element =>
      (element.1, state.2 ++ [element.2])) (generator.heap, [])).map fun state =>
        ({ generator with
            heap := state.1.alloc (state.2.map fun p => .pointer p 0)
            currentMaxNbPolys := crypto.reimportNbPolys generator.currentMaxNbPolys },
          state.1.next)

/-- A level of the recursion, for the elements at `in_data`, and the elements of the next. -/
def replyLevel (state : ReplyGenerator Poly Cipher × ℕ) (i : ℕ) :
    Option (ReplyGenerator Poly Cipher × ℕ) :=
  (replyBlocks crypto pirParams fuel subtract i state.2 state.1).bind fun blocks =>
    (if 0 < i then freeElements state.2 (pirParams.nbElements i) blocks.1.heap
      else some blocks.1.heap).bind fun heap =>
        if i < pirParams.d - 1 then
          (fromResulttoInData crypto blocks.2 { blocks.1 with heap }).bind fun elements =>
            (elements.1.heap.freeAll blocks.2.flatten).map fun heap =>
              ({ elements.1 with heap }, elements.2)
        else some ({ blocks.1 with heap }, state.2)

/-- The array is allocated with null pointers, and filled with the replies of the last level. -/
def generateReply (input_data : ℕ) (generator : ReplyGenerator Poly Cipher) :
    Option (ReplyGenerator Poly Cipher) :=
  generator.freeResult.bind fun generator =>
    ((List.range pirParams.d).foldlM (replyLevel crypto pirParams fuel subtract)
      ({ generator with
          repliesArray := some (List.replicate generator.repliesAmount none) },
        input_data)).map Prod.fst

end Replies

/-! ## The same generation in a copy of the memory -/

variable {names : Renaming} {kept : ℕ → Option (List (ReplyWord Poly Cipher))}
  {heap copy : Heap (ReplyWord Poly Cipher)} {place : ℕ × ℕ}

section Access

theorem readCipher_copy (copies : names.Copies kept heap copy) (address : ℕ) :
    readCipher copy (names.move address) = readCipher heap address := by
  rw [readCipher, readCipher, copies.read, Option.bind_map]
  congr 1
  funext word
  cases word <;> rfl

theorem readQuotients_copy (copies : names.Copies kept heap copy) (address : ℕ) :
    readQuotients copy (names.move address) = readQuotients heap address := by
  rw [readQuotients, readQuotients, copies.read, Option.bind_map]
  congr 1
  funext word
  cases word <;> rfl

theorem readPointer_copy (copies : names.Copies kept heap copy) (address index : ℕ) :
    readPointer copy (names.move address) index =
      (readPointer heap address index).map (Prod.map names.move id) := by
  rw [readPointer, readPointer, copies.read, Option.bind_map, Option.map_bind]
  congr 1
  funext word
  cases word <;> rfl

theorem readPoly_copy (copies : names.Copies kept heap copy) (p index : ℕ) :
    readPoly copy (names.move p) index = readPoly heap p index := by
  rw [readPoly, readPoly, readPointer_copy copies, Option.bind_map]
  congr 1
  funext place
  rw [Function.comp_apply, Prod.map_fst, Prod.map_snd, copies.read, Option.bind_map]
  congr 1
  funext word
  cases word <;> rfl

/-- A pointer in a block of the generator points to one of its blocks. -/
theorem le_of_readPointer (copies : names.Copies kept heap copy) {address index : ℕ}
    (above : names.base ≤ address) (reads : readPointer heap address index = some place) :
    names.base ≤ place.1 := by
  rcases Option.bind_eq_some_iff.mp reads with ⟨word, read, points⟩
  have owned := copies.owned_of_read above read
  cases word with
  | pointer target index =>
      rw [← Option.some.inj points]
      exact owned target ⟨index, rfl⟩
  | poly value => exact absurd points (by simp [ReplyWord.pointer?])
  | cipher value => exact absurd points (by simp [ReplyWord.pointer?])
  | quotients value => exact absurd points (by simp [ReplyWord.pointer?])

theorem owned_cipher (value : Cipher) :
    names.Owned (ReplyWord.cipher value : ReplyWord Poly Cipher) := by
  rintro address ⟨index, points⟩
  exact absurd points (by simp)

theorem alloc_cipher_copy (copies : names.Copies kept heap copy) (value : Cipher) :
    names.Copies kept (heap.alloc [.cipher value]) (copy.alloc [.cipher value]) := by
  apply copies.alloc
  intro word word_mem
  rw [List.mem_singleton.mp word_mem]
  exact owned_cipher value

theorem owned_quotients (value : Cipher) :
    names.Owned (ReplyWord.quotients value : ReplyWord Poly Cipher) := by
  rintro address ⟨index, points⟩
  exact absurd points (by simp)

theorem owned_poly (value : Poly) :
    names.Owned (ReplyWord.poly value : ReplyWord Poly Cipher) := by
  rintro address ⟨index, points⟩
  exact absurd points (by simp)

theorem owned_pointer {address : ℕ} (above : names.base ≤ address) (index : ℕ) :
    names.Owned (ReplyWord.pointer address index : ReplyWord Poly Cipher) := by
  rintro target ⟨place, points⟩
  rw [ReplyWord.pointer.injEq] at points
  rw [← points.1]
  exact above

/-- The states have a new block of the same name. -/
structure SameBlock {State : Type} (names : Renaming) (same : State → State → Prop)
    (state next : State × ℕ) : Prop where
  states : same state.1 next.1
  block : next.2 = names.move state.2
  above : names.base ≤ state.2

/-- The states have new blocks of the same names. -/
structure SameBlocks {State : Type} (names : Renaming) (same : State → State → Prop)
    (state next : State × List ℕ) : Prop where
  states : same state.1 next.1
  blocks : next.2 = state.2.map names.move
  above : ∀ address ∈ state.2, names.base ≤ address

theorem allocElement_copy (copies : names.Copies kept heap copy) (polys : List Poly) :
    SameBlock names (names.Copies kept) (allocElement heap polys) (allocElement copy polys) := by
  have allocated : names.Copies kept (heap.alloc (polys.map .poly))
      (copy.alloc (polys.map .poly)) :=
    copies.alloc_map (fun _ _ => rfl) fun poly _ => owned_poly poly
  refine ⟨?_, allocated.move_next.symm, allocated.base_le⟩
  apply allocated.alloc_map
  · intro poly _
    rw [← copies.move_next]
    rfl
  · intro poly _
    exact owned_pointer copies.base_le poly

theorem charToLWECipher_copy (copies : names.Copies kept heap copy) {c : List ℕ}
    (above : ∀ address ∈ c, names.base ≤ address) :
    Lockstep (SameBlock names (names.Copies kept)) (charToLWECipher heap c)
      (charToLWECipher copy (c.map names.move)) := by
  rw [charToLWECipher, charToLWECipher, List.length_map]
  split
  · refine .some ⟨?_, copies.move_next.symm, copies.base_le⟩
    dsimp only
    rw [List.map_map]
    apply copies.alloc_map
    · intro address _
      rfl
    · intro address address_mem
      exact owned_pointer (above address address_mem) 0
  · exact .none

theorem freePointer_copy (copies : names.Copies kept heap copy) (above : names.base ≤ place.1) :
    Lockstep (names.Copies kept) (freePointer heap place)
      (freePointer copy (Prod.map names.move id place)) := by
  rw [freePointer, freePointer]
  by_cases start : place.2 = 0
  · rw [if_pos start, if_pos (by exact start)]
    exact copies.free above
  · rw [if_neg start, if_neg (by exact start)]
    exact .none

end Access

/-- The generators hold the same queries, in blocks of their own. -/
structure Receiving (names : Renaming) (kept : ℕ → Option (List (ReplyWord Poly Cipher)))
    (pirParams : PIRParameters) (generator copy : ReplyGenerator Poly Cipher) : Prop where
  memory : names.Copies kept generator.heap copy.heap
  queries : ∀ i < pirParams.d, ∀ j < pirParams.n i,
    copy.queriesBuf i j = (generator.queriesBuf i j).map (Prod.map names.move names.move)
  queries_above : ∀ i < pirParams.d, ∀ j < pirParams.n i, ∀ query,
    generator.queriesBuf i j = some query → names.base ≤ query.1 ∧ names.base ≤ query.2
  currentDimIndex : copy.currentDimIndex = generator.currentDimIndex
  currentQueryIndex : copy.currentQueryIndex = generator.currentQueryIndex

/-- The same replies are stored in two arrays, in blocks of their own. -/
structure SameReplies (names : Renaming) (repliesAmount : ℕ)
    (repliesArray copyArray : Option (List (Option ℕ))) : Prop where
  length : ∀ entries, repliesArray = some entries → entries.length = repliesAmount
  entries : copyArray = repliesArray.map (List.map (Option.map names.move))
  above : ∀ entries, repliesArray = some entries → ∀ reply, some reply ∈ entries →
    names.base ≤ reply

/-- The generators are at the same place in the generation of a reply. -/
structure Replying (names : Renaming) (kept : ℕ → Option (List (ReplyWord Poly Cipher)))
    (pirParams : PIRParameters) (generator copy : ReplyGenerator Poly Cipher) : Prop
    extends Receiving names kept pirParams generator copy where
  currentMaxNbPolys : copy.currentMaxNbPolys = generator.currentMaxNbPolys
  repliesArray : SameReplies names generator.repliesAmount generator.repliesArray copy.repliesArray
  repliesAmount : copy.repliesAmount = generator.repliesAmount
  repliesAmount_lt : generator.repliesAmount < 2 ^ 64
  nbRepliesToHandle : generator.nbRepliesToHandle = generator.repliesAmount
  copyReplies : copy.nbRepliesToHandle = generator.nbRepliesToHandle
  currentReply : generator.currentReply = 0
  copyReply : copy.currentReply = 0

section Queries

variable {pirParams : PIRParameters} {generator other : ReplyGenerator Poly Cipher}

theorem mem_queryPlaces {place : ℕ × ℕ} :
    place ∈ queryPlaces pirParams ↔ place.1 < pirParams.d ∧ place.2 < pirParams.n place.1 := by
  rw [queryPlaces, List.mem_flatMap]
  constructor
  · rintro ⟨dim, dim_mem, place_mem⟩
    rcases List.mem_map.mp place_mem with ⟨nbr, nbr_mem, rfl⟩
    exact ⟨List.mem_range.mp dim_mem, List.mem_range.mp nbr_mem⟩
  · rintro ⟨dim_lt, nbr_lt⟩
    exact ⟨place.1, List.mem_range.mpr dim_lt,
      List.mem_map.mpr ⟨place.2, List.mem_range.mpr nbr_lt, rfl⟩⟩

/-- All replies have been popped, or there is no array. -/
def Drained (generator : ReplyGenerator Poly Cipher) : Prop :=
  ∀ entries, generator.repliesArray = some entries →
    entries = List.replicate generator.repliesAmount none

/-- Nothing has to be freed then but the array. -/
theorem Drained.freeResult_eq (drained : generator.Drained) :
    generator.freeResult = some { generator with repliesArray := none } := by
  cases present : generator.repliesArray with
  | none =>
      simp only [freeResult, present]
      rw [← present]
  | some entries =>
      have kept : ∀ count ≤ generator.repliesAmount, (List.range count).foldlM
          (freeReply entries) generator.heap = some generator.heap := by
        intro count
        induction count with
        | zero => exact fun _ => rfl
        | succ count ih =>
            intro count_lt
            have none_here : entries[count]? = some none := by
              rw [drained entries present, List.getElem?_replicate,
                if_pos (Nat.lt_of_succ_le count_lt)]
            rw [foldlM_range_succ, ih (Nat.le_of_succ_le count_lt), Option.bind_some, freeReply,
              none_here, Option.bind_some]
      simp only [freeResult, present]
      rw [kept _ le_rfl, Option.map_some]

/-- The generators wait for a query, or for the end of one. -/
structure Waiting (names : Renaming) (kept : ℕ → Option (List (ReplyWord Poly Cipher)))
    (pirParams : PIRParameters) (generator copy : ReplyGenerator Poly Cipher) : Prop
    extends Receiving names kept pirParams generator copy where
  drained : generator.Drained
  copyDrained : copy.Drained

theorem Waiting.advance (waiting : Waiting names kept pirParams generator other) :
    Waiting names kept pirParams (generator.advance pirParams) (other.advance pirParams) := by
  rw [ReplyGenerator.advance, ReplyGenerator.advance, waiting.currentDimIndex,
    waiting.currentQueryIndex]
  split
  · exact { waiting with
      currentDimIndex := rfl
      currentQueryIndex := rfl }
  · exact { waiting with
      currentDimIndex := rfl
      currentQueryIndex := rfl }

theorem queriesBuf_setQuery (generator : ReplyGenerator Poly Cipher)
    (heap : Heap (ReplyWord Poly Cipher)) (place : ℕ × ℕ) (query : Option (ℕ × ℕ)) (i j : ℕ) :
    (generator.setQuery heap place query).queriesBuf i j =
      if (i, j) = place then query else generator.queriesBuf i j := by
  simp only [setQuery]
  by_cases row : i = place.1
  · subst row
    by_cases column : j = place.2
    · rw [column, Function.update_self, Function.update_self, if_pos rfl]
    · rw [Function.update_self, Function.update_of_ne column, if_neg]
      intro same
      exact column (congrArg Prod.snd same)
  · rw [Function.update_of_ne row, if_neg]
    intro same
    exact row (congrArg Prod.fst same)

/-- An entry of the buffer of queries is replaced in both generators. -/
theorem Waiting.setQuery (waiting : Waiting names kept pirParams generator other)
    {heap copy : Heap (ReplyWord Poly Cipher)} (copies : names.Copies kept heap copy)
    (place : ℕ × ℕ) {query : Option (ℕ × ℕ)}
    (above : ∀ blocks, query = some blocks → names.base ≤ blocks.1 ∧ names.base ≤ blocks.2) :
    Waiting names kept pirParams (generator.setQuery heap place query)
      (other.setQuery copy place (query.map (Prod.map names.move names.move))) := by
  refine { waiting with memory := copies, queries := ?_, queries_above := ?_ }
  · intro i i_lt j j_lt
    rw [queriesBuf_setQuery, queriesBuf_setQuery]
    split
    · rfl
    · exact waiting.queries i i_lt j j_lt
  · intro i i_lt j j_lt blocks blocks_eq
    rw [queriesBuf_setQuery] at blocks_eq
    split at blocks_eq
    · exact above blocks blocks_eq
    · exact waiting.queries_above i i_lt j j_lt blocks blocks_eq

theorem pushQuery_copy (waiting : Waiting names kept pirParams generator other) {rawQuery : ℕ}
    (above : names.base ≤ rawQuery) :
    Lockstep (Waiting names kept pirParams) (pushQuery pirParams generator rawQuery)
      (pushQuery pirParams other (names.move rawQuery)) := by
  have memory := waiting.memory
  simp only [pushQuery]
  rw [waiting.currentDimIndex, waiting.currentQueryIndex, readCipher_copy memory]
  split
  · apply Lockstep.map_same
    intro query _
    have allocated : names.Copies kept (generator.heap.alloc [.quotients query])
        (other.heap.alloc [.quotients query]) := by
      apply memory.alloc
      intro word word_mem
      rw [List.mem_singleton.mp word_mem]
      exact owned_quotients query
    rw [← memory.move_next]
    apply Waiting.advance
    apply waiting.setQuery allocated
    intro blocks blocks_eq
    rw [← Option.some.inj blocks_eq]
    exact ⟨above, memory.base_le⟩
  · exact .none

theorem freeQuery_copy (waiting : Waiting names kept pirParams generator other)
    {place : ℕ × ℕ} (place_mem : place ∈ queryPlaces pirParams) :
    Lockstep (Waiting names kept pirParams) (freeQuery generator place)
      (freeQuery other place) := by
  rcases mem_queryPlaces.mp place_mem with ⟨dim_lt, nbr_lt⟩
  have renamed := waiting.queries place.1 dim_lt place.2 nbr_lt
  cases stored : generator.queriesBuf place.1 place.2 with
  | none =>
      rw [stored, Option.map_none] at renamed
      simp only [freeQuery, stored, renamed]
      exact .some waiting
  | some query =>
      rw [stored, Option.map_some] at renamed
      simp only [freeQuery, stored, renamed]
      have above := waiting.queries_above place.1 dim_lt place.2 nbr_lt query stored
      apply (waiting.memory.free above.1).bind
      intro heap copy copies
      apply (copies.free above.2).map
      intro heap copy copies
      apply waiting.setQuery copies place
      intro blocks blocks_eq
      exact absurd blocks_eq (by simp)

theorem freeQueries_copy (waiting : Waiting names kept pirParams generator other) :
    Lockstep (Waiting names kept pirParams) (freeQueries pirParams generator)
      (freeQueries pirParams other) := by
  rw [freeQueries, freeQueries]
  apply (Lockstep.foldlM waiting _).map
  · intro generator other waiting
    exact { waiting with
      currentDimIndex := rfl
      currentQueryIndex := rfl }
  · intro generator other place place_mem waiting
    exact freeQuery_copy waiting place_mem

theorem queriesBuf_freeQuery {place : ℕ × ℕ} (frees : freeQuery generator place = some other)
    (i j : ℕ) :
    other.queriesBuf i j = if (i, j) = place then none else generator.queriesBuf i j := by
  cases stored : generator.queriesBuf place.1 place.2 with
  | none =>
      simp only [freeQuery, stored] at frees
      rw [← Option.some.inj frees]
      split
      · rename_i here
        rw [← stored, ← here]
      · rfl
  | some query =>
      simp only [freeQuery, stored] at frees
      rcases Option.bind_eq_some_iff.mp frees with ⟨heap, -, frees⟩
      rcases Option.map_eq_some_iff.mp frees with ⟨after, -, rfl⟩
      exact queriesBuf_setQuery ..

theorem indices_freeQueries (frees : freeQueries pirParams generator = some other) :
    other.currentDimIndex = 0 ∧ other.currentQueryIndex = 0 := by
  rcases Option.map_eq_some_iff.mp frees with ⟨after, -, rfl⟩
  exact ⟨rfl, rfl⟩

/-- No element of the query is left. -/
theorem queriesBuf_freeQueries (frees : freeQueries pirParams generator = some other)
    {i j : ℕ} (i_lt : i < pirParams.d) (j_lt : j < pirParams.n i) :
    other.queriesBuf i j = none := by
  have emptied : ∀ (places : List (ℕ × ℕ)) (generator after : ReplyGenerator Poly Cipher),
      places.foldlM freeQuery generator = some after →
        (i, j) ∈ places ∨ generator.queriesBuf i j = none → after.queriesBuf i j = none := by
    intro places
    induction places with
    | nil =>
        intro generator after frees empty
        rw [← Option.some.inj frees]
        exact empty.resolve_left (by simp)
    | cons place places ih =>
        intro generator after frees empty
        rw [List.foldlM_cons] at frees
        rcases Option.bind_eq_some_iff.mp frees with ⟨middle, first, rest⟩
        have next := queriesBuf_freeQuery first i j
        apply ih middle after rest
        by_cases here : (i, j) = place
        · right
          rw [next, if_pos here]
        · rw [if_neg here] at next
          rw [next]
          exact empty.imp_left fun listed => (List.mem_cons.mp listed).resolve_left here
  rcases Option.map_eq_some_iff.mp frees with ⟨after, all, rfl⟩
  exact emptied _ generator after all (Or.inl (mem_queryPlaces.mpr ⟨i_lt, j_lt⟩))

end Queries

section Replies

variable (crypto : LatticesBasedCryptosystem Poly Cipher) {pirParams : PIRParameters} (fuel : ℕ)
  (subtract : Option ℕ) {generator other : ReplyGenerator Poly Cipher}
  {lvl in_data data rop : ℕ} (current_poly : ℕ)

theorem Replying.withMemory (replying : Replying names kept pirParams generator other)
    {heap copy : Heap (ReplyWord Poly Cipher)} (copies : names.Copies kept heap copy) :
    Replying names kept pirParams { generator with heap } { other with heap := copy } :=
  { replying with memory := copies }

theorem mulandadd_copy (copies : names.Copies kept heap copy) (above : names.base ≤ rop)
    (p : ℕ) (query : ℕ × ℕ) :
    Lockstep (names.Copies kept) (mulandadd crypto heap rop p query current_poly)
      (mulandadd crypto copy (names.move rop) (names.move p)
        (Prod.map names.move names.move query) current_poly) := by
  rw [mulandadd, mulandadd, readCipher_copy copies, readPoly_copy copies, Prod.map_fst,
    Prod.map_snd, readCipher_copy copies, readQuotients_copy copies]
  apply Lockstep.bind_same
  intro result _
  apply Lockstep.bind_same
  intro poly _
  apply Lockstep.bind_same
  intro cipher _
  apply Lockstep.bind_same
  intro _ _
  exact copies.write above (owned_cipher _)

theorem absorbRange_copy (receiving : Receiving names kept pirParams generator other)
    (copies : names.Copies kept heap copy) (lvl_lt : lvl < pirParams.d)
    (above : names.base ≤ rop) {offset count : ℕ} (inside : offset + count ≤ pirParams.n lvl) :
    Lockstep (names.Copies kept)
      (absorbRange crypto generator.queriesBuf lvl in_data data rop current_poly offset count heap)
      (absorbRange crypto other.queriesBuf lvl (names.move in_data) data (names.move rop)
        current_poly offset count copy) := by
  apply Lockstep.foldlM copies
  intro heap copy ggg ggg_mem copies
  have ggg_lt := List.mem_range.mp ggg_mem
  rw [readPointer_copy copies, receiving.queries lvl lvl_lt (offset + ggg) (by omega)]
  apply Lockstep.bind_map
  intro p _
  apply Lockstep.bind_map
  intro query _
  exact mulandadd_copy crypto current_poly copies above p.1 query

theorem subtractRequest_copy (copies : names.Copies kept heap copy) (above : names.base ≤ rop)
    (next : ℕ) :
    Lockstep (names.Copies kept)
      (subtractRequest crypto pirParams subtract lvl rop current_poly next heap)
      (subtractRequest crypto pirParams (subtract.map names.move) lvl (names.move rop)
        current_poly next copy) := by
  cases subtract with
  | none => exact .some copies
  | some request =>
      simp only [subtractRequest, Option.map_some]
      split
      · rw [readCipher_copy copies, readPointer_copy copies]
        apply Lockstep.bind_same
        intro result _
        apply Lockstep.bind_map
        intro place _
        rw [Prod.map_fst, readCipher_copy copies]
        apply Lockstep.bind_same
        intro cipher _
        exact copies.write above (owned_cipher _)
      · exact .some copies

theorem storeReply_copy {amount : ℕ} {repliesArray copyArray : Option (List (Option ℕ))}
    (same : SameReplies names amount repliesArray copyArray) (above : names.base ≤ rop)
    (next : ℕ) :
    Lockstep (SameReplies names amount)
      (storeReply pirParams lvl rop current_poly next repliesArray)
      (storeReply pirParams lvl (names.move rop) current_poly next copyArray) := by
  rw [storeReply, storeReply]
  split
  · rw [same.entries]
    apply Lockstep.bind_map
    intro entries present
    rw [List.length_map]
    split
    · refine .some ⟨?_, ?_, ?_⟩
      · intro stored stored_eq
        rw [← Option.some.inj stored_eq, List.length_set, same.length entries present]
      · rw [Option.map_some, List.map_set, Option.map_some]
      · intro stored stored_eq reply reply_mem
        rw [← Option.some.inj stored_eq] at reply_mem
        rcases List.mem_or_eq_of_mem_set reply_mem with before | new
        · exact same.above entries present reply before
        · rw [Option.some.inj new]
          exact above
    · exact .none
  · exact .some same

/-- The loops on one polynomial are in the same round. -/
structure SameRound (names : Renaming) (kept : ℕ → Option (List (ReplyWord Poly Cipher)))
    (pirParams : PIRParameters) (state next : ℕ × ReplyGenerator Poly Cipher) : Prop where
  offset : next.1 = state.1
  replying : Replying names kept pirParams state.2 next.2

theorem SameRound.absorbRound {state next : ℕ × ReplyGenerator Poly Cipher}
    (same : SameRound names kept pirParams state next) (lvl_lt : lvl < pirParams.d)
    (above : names.base ≤ rop) (continues : state.1 < pirParams.n lvl) :
    Lockstep (SameRound names kept pirParams)
      (absorbRound crypto pirParams subtract lvl in_data data rop current_poly state)
      (absorbRound crypto pirParams (subtract.map names.move) lvl (names.move in_data)
        data (names.move rop) current_poly next) := by
  have replying := same.replying
  rw [ReplyGenerator.absorbRound, ReplyGenerator.absorbRound, same.offset]
  apply (absorbRange_copy crypto current_poly replying.toReceiving replying.memory lvl_lt above
    (by omega)).bind
  intro heap copy copies
  apply (subtractRequest_copy crypto subtract current_poly copies above _).bind
  intro heap copy copies
  apply (storeReply_copy current_poly replying.repliesArray above _).map
  intro entries copyEntries same
  exact ⟨rfl, { replying with memory := copies, repliesArray := same }⟩

theorem absorb_copy (replying : Replying names kept pirParams generator other)
    (lvl_lt : lvl < pirParams.d) :
    Lockstep (Replying names kept pirParams)
      (absorb crypto pirParams fuel subtract lvl in_data data current_poly generator)
      (absorb crypto pirParams fuel (subtract.map names.move) lvl
        (names.move in_data) data current_poly other) := by
  have copies := replying.memory
  have start : SameRound names kept pirParams
      (0, { generator with heap := generator.heap.alloc [.cipher crypto.zero] })
      (0, { other with heap := other.heap.alloc [.cipher crypto.zero] }) :=
    ⟨rfl, replying.withMemory (alloc_cipher_copy copies crypto.zero)⟩
  rw [absorb, absorb, ← copies.move_next]
  refine (Lockstep.whileLoop fuel start ?_ ?_).map ?_
  · intro state next same
    rw [same.offset]
  · intro state next same continues
    exact same.absorbRound crypto subtract current_poly lvl_lt copies.base_le
      (of_decide_eq_true continues)
  · intro state next same
    exact same.replying

theorem SameBlocks.append {State : Type} {same : State → State → Prop}
    {state next : State × List ℕ} {after afterNext : State} {address : ℕ}
    (blocks : SameBlocks names same state next) (states : same after afterNext)
    (above : names.base ≤ address) :
    SameBlocks names same (after, state.2 ++ [address])
      (afterNext, next.2 ++ [names.move address]) := by
  refine ⟨states, ?_, ?_⟩
  · rw [blocks.blocks, List.map_append, List.map_singleton]
  · intro other other_mem
    rcases List.mem_append.mp other_mem with before | new
    · exact blocks.above other before
    · rw [List.mem_singleton.mp new]
      exact above

/-- The results of some blocks of elements have the same names. -/
structure SameResults (names : Renaming) (kept : ℕ → Option (List (ReplyWord Poly Cipher)))
    (pirParams : PIRParameters) (state next : ReplyGenerator Poly Cipher × List (List ℕ)) :
    Prop where
  replying : Replying names kept pirParams state.1 next.1
  results : next.2 = state.2.map (List.map names.move)
  above : ∀ block ∈ state.2, ∀ result ∈ block, names.base ≤ result

theorem replyBlock_copy (replying : Replying names kept pirParams generator other)
    (lvl_lt : lvl < pirParams.d) (j : ℕ) :
    Lockstep (SameBlocks names (Replying names kept pirParams))
      (replyBlock crypto pirParams fuel subtract lvl in_data j generator)
      (replyBlock crypto pirParams fuel (subtract.map names.move) lvl
        (names.move in_data) j other) := by
  rw [replyBlock, replyBlock, replying.currentMaxNbPolys]
  split
  · apply Lockstep.foldlM
    · exact ⟨replying, rfl, by simp⟩
    · intro state next current_poly _ blocks
      have memory := blocks.states.memory
      rw [← memory.move_next]
      apply (absorb_copy crypto fuel subtract current_poly blocks.states lvl_lt).map
      intro generator other replying
      exact blocks.append replying memory.base_le
  · exact .none

theorem replyBlocks_copy (replying : Replying names kept pirParams generator other)
    (lvl_lt : lvl < pirParams.d) :
    Lockstep (SameResults names kept pirParams)
      (replyBlocks crypto pirParams fuel subtract lvl in_data generator)
      (replyBlocks crypto pirParams fuel (subtract.map names.move) lvl
        (names.move in_data) other) := by
  rw [replyBlocks, replyBlocks]
  apply Lockstep.foldlM
  · exact ⟨replying, rfl, by simp⟩
  · intro state next j _ same
    apply (replyBlock_copy crypto fuel subtract same.replying lvl_lt j).map
    intro block copy blocks
    refine ⟨blocks.states, ?_, ?_⟩
    · rw [same.results, blocks.blocks, List.map_append, List.map_singleton]
    · intro results results_mem
      rcases List.mem_append.mp results_mem with before | new
      · exact same.above results before
      · rw [List.mem_singleton.mp new]
        exact blocks.above

theorem freeElements_copy (copies : names.Copies kept heap copy) (above : names.base ≤ in_data)
    (old_reply_elt_nbr : ℕ) :
    Lockstep (names.Copies kept) (freeElements in_data old_reply_elt_nbr heap)
      (freeElements (names.move in_data) old_reply_elt_nbr copy) := by
  rw [freeElements, freeElements]
  split
  · have elements : Lockstep (names.Copies kept)
        ((List.range old_reply_elt_nbr).foldlM (fun heap j =>
          (readPointer heap in_data j).bind fun p => (readPointer heap p.1 0).bind fun start =>
            (freePointer heap start).bind fun heap => freePointer heap p) heap)
        ((List.range old_reply_elt_nbr).foldlM (fun heap j =>
          (readPointer heap (names.move in_data) j).bind fun p =>
            (readPointer heap p.1 0).bind fun start =>
              (freePointer heap start).bind fun heap => freePointer heap p) copy) := by
      apply Lockstep.foldlM copies
      intro heap copy j _ copies
      rw [readPointer_copy copies]
      apply Lockstep.bind_map
      intro p p_read
      have p_above := le_of_readPointer copies above p_read
      rw [Prod.map_fst, readPointer_copy copies]
      apply Lockstep.bind_map
      intro start start_read
      apply (freePointer_copy copies (le_of_readPointer copies p_above start_read)).bind
      intro heap copy copies
      exact freePointer_copy copies p_above
    exact elements.bind fun heap copy copies => copies.free above
  · exact .none

theorem deserializeElement_copy (copies : names.Copies kept heap copy) (ciphers : List ℕ) :
    Lockstep (SameBlock names (names.Copies kept)) (deserializeElement crypto heap ciphers)
      (deserializeElement crypto copy (ciphers.map names.move)) := by
  have sameBuffers : (ciphers.map names.move).mapM (readCipher copy) =
      ciphers.mapM (readCipher heap) := by
    rw [List.mapM_map]
    congr 1
    funext address
    exact readCipher_copy copies address
  rw [deserializeElement, deserializeElement, sameBuffers]
  apply Lockstep.map_same
  intro buffers _
  exact allocElement_copy copies _

theorem fromResulttoInData_copy (replying : Replying names kept pirParams generator other)
    {inter_reply : List (List ℕ)} :
    Lockstep (SameBlock names (Replying names kept pirParams))
      (fromResulttoInData crypto inter_reply generator)
      (fromResulttoInData crypto (inter_reply.map (List.map names.move)) other) := by
  have elements : Lockstep (SameBlocks names (names.Copies kept))
      (inter_reply.foldlM (fun state ciphers =>
        (deserializeElement crypto state.1 ciphers).map fun element =>
          (element.1, state.2 ++ [element.2])) (generator.heap, []))
      ((inter_reply.map (List.map names.move)).foldlM (fun state ciphers =>
        (deserializeElement crypto state.1 ciphers).map fun element =>
          (element.1, state.2 ++ [element.2])) (other.heap, [])) := by
    rw [List.foldlM_map]
    apply Lockstep.foldlM
    · exact ⟨replying.memory, rfl, by simp⟩
    · intro state next ciphers _ blocks
      apply (deserializeElement_copy crypto blocks.states ciphers).map
      intro element renamed same
      rw [same.block]
      exact blocks.append same.states same.above
  rw [fromResulttoInData, fromResulttoInData, replying.currentMaxNbPolys]
  apply elements.map
  intro state next blocks
  have memory := blocks.states
  have allocated : names.Copies kept (state.1.alloc (state.2.map fun p => .pointer p 0))
      (next.1.alloc (next.2.map fun p => .pointer p 0)) := by
    rw [blocks.blocks, List.map_map]
    apply memory.alloc_map
    · intro p _
      rfl
    · intro p p_mem
      exact owned_pointer (blocks.above p p_mem) 0
  exact ⟨{ replying.withMemory allocated with currentMaxNbPolys := rfl }, memory.move_next.symm,
    memory.base_le⟩

/-- The elements of a level after the first are blocks of the generator. -/
structure SameLevel (names : Renaming) (kept : ℕ → Option (List (ReplyWord Poly Cipher)))
    (pirParams : PIRParameters) (lvl : ℕ) (state next : ReplyGenerator Poly Cipher × ℕ) :
    Prop where
  replying : Replying names kept pirParams state.1 next.1
  in_data : next.2 = names.move state.2
  above : 0 < lvl → lvl < pirParams.d → names.base ≤ state.2

theorem replyLevel_copy {state next : ReplyGenerator Poly Cipher × ℕ}
    (same : SameLevel names kept pirParams lvl state next) (lvl_lt : lvl < pirParams.d) :
    Lockstep (SameLevel names kept pirParams (lvl + 1))
      (replyLevel crypto pirParams fuel subtract state lvl)
      (replyLevel crypto pirParams fuel (subtract.map names.move) next lvl) := by
  rw [replyLevel, replyLevel, same.in_data]
  apply (replyBlocks_copy crypto fuel subtract same.replying lvl_lt).bind
  intro blocks copyBlocks results
  have cleaned : Lockstep (names.Copies kept)
      (if 0 < lvl then freeElements state.2 (pirParams.nbElements lvl) blocks.1.heap
        else some blocks.1.heap)
      (if 0 < lvl then freeElements (names.move state.2) (pirParams.nbElements lvl)
        copyBlocks.1.heap else some copyBlocks.1.heap) := by
    split
    · rename_i later
      exact freeElements_copy results.replying.memory (same.above later lvl_lt) _
    · exact .some results.replying.memory
  apply cleaned.bind
  intro heap copy copies
  split
  · rw [results.results]
    apply (fromResulttoInData_copy crypto (results.replying.withMemory copies)).bind
    intro elements renamed same
    have freed : Lockstep (names.Copies kept) (elements.1.heap.freeAll blocks.2.flatten)
        (renamed.1.heap.freeAll (blocks.2.map (List.map names.move)).flatten) := by
      rw [← List.map_flatten]
      apply same.states.memory.freeAll
      intro address address_mem
      rcases List.mem_flatten.mp address_mem with ⟨block, block_mem, address_mem⟩
      exact results.above block block_mem address address_mem
    apply freed.map
    intro heap copy copies
    exact ⟨same.states.withMemory copies, same.block, fun _ _ => same.above⟩
  · refine .some ⟨results.replying.withMemory copies, rfl, fun _ below => ?_⟩
    omega

/-- The array is allocated with null pointers in both generators. -/
theorem generateReply_copy (replying : Replying names kept pirParams generator other)
    (emptied : generator.repliesArray = none) (input_data : ℕ) :
    Lockstep (Replying names kept pirParams)
      (generateReply crypto pirParams fuel subtract input_data generator)
      (generateReply crypto pirParams fuel (subtract.map names.move)
        (names.move input_data) other) := by
  have otherEmptied : other.repliesArray = none := by
    rw [replying.repliesArray.entries, emptied, Option.map_none]
  have freed : generator.freeResult = some generator := by
    rw [freeResult, emptied]
  have otherFreed : other.freeResult = some other := by
    rw [freeResult, otherEmptied]
  rw [generateReply, generateReply, freed, otherFreed, Option.bind_some, Option.bind_some]
  have start : SameLevel names kept pirParams 0
      ({ generator with
          repliesArray := some (List.replicate generator.repliesAmount none) }, input_data)
      ({ other with
          repliesArray := some (List.replicate other.repliesAmount none) },
        names.move input_data) := by
    refine ⟨{ replying with repliesArray := ⟨?_, ?_, ?_⟩ }, rfl, ?_⟩
    · intro entries entries_eq
      rw [← Option.some.inj entries_eq, List.length_replicate]
    · rw [Option.map_some, List.map_replicate, Option.map_none, replying.repliesAmount]
    · intro entries entries_eq reply reply_mem
      rw [← Option.some.inj entries_eq] at reply_mem
      exact absurd (List.eq_of_mem_replicate reply_mem) (by simp)
    · intro later
      exact absurd later (lt_irrefl 0)
  apply (Lockstep.foldlM_range (SameLevel names kept pirParams) start ?_).map
  · intro state next same
    exact same.replying
  · intro state next lvl lvl_lt same
    exact replyLevel_copy crypto fuel subtract same lvl_lt

end Replies

end ReplyGenerator

end Xpir
