import Xpir.Foundations.HeapLedger
import Xpir.ReplyGenerator.ReplyMemory

/-!
# The generation in memory refines the generation of ciphertexts

The server computes a reply in blocks of memory that it allocates and frees. This file proves
that the blocks hold the ciphertexts of the generation without memory at every level, as long
as the elements of the database, the queries and the request can be read where they are. The
blocks of the levels before the last one are freed, and those from before the generation are
kept.
-/

namespace Xpir

namespace ReplyGenerator

variable {Poly Cipher : Type} {heap after : Heap (ReplyWord Poly Cipher)} {address : ℕ}

section Reading

theorem read_bind_within {Value : Type} {part : ReplyWord Poly Cipher → Option Value} {index : ℕ}
    {value : Value} (within : heap.Within after)
    (reads : (heap.read address index).bind part = some value) :
    (after.read address index).bind part = some value := by
  rcases Option.bind_eq_some_iff.mp reads with ⟨word, here, word_eq⟩
  rw [within.read here, Option.bind_some, word_eq]

theorem readCipher_within {cipher : Cipher} (within : heap.Within after)
    (reads : readCipher heap address = some cipher) : readCipher after address = some cipher :=
  read_bind_within within reads

theorem readPointer_within {index : ℕ} {place : ℕ × ℕ} (within : heap.Within after)
    (reads : readPointer heap address index = some place) :
    readPointer after address index = some place :=
  read_bind_within within reads

theorem readPoly_within {index : ℕ} {poly : Poly} (within : heap.Within after)
    (reads : readPoly heap address index = some poly) :
    readPoly after address index = some poly := by
  rcases Option.bind_eq_some_iff.mp reads with ⟨place, points, poly_eq⟩
  rw [readPoly, readPointer_within within points, Option.bind_some]
  exact read_bind_within within poly_eq

theorem readCipher_of_block {cipher : Cipher}
    (block : heap.blocks address = some [.cipher cipher]) :
    readCipher heap address = some cipher := by
  rw [readCipher, Heap.read_of_block block]
  rfl

theorem readQuotients_of_block {cipher : Cipher}
    (block : heap.blocks address = some [.quotients cipher]) :
    readQuotients heap address = some cipher := by
  rw [readQuotients, Heap.read_of_block block]
  rfl

/-- The polynomials at one place of the elements of a block, and the queries, can be read. -/
def Readable (heap : Heap (ReplyWord Poly Cipher)) (queriesBuf : ℕ → Option (ℕ × ℕ))
    (in_data data current_poly count : ℕ) (values : ℕ → Poly) (queries : ℕ → Cipher) : Prop :=
  ∀ k < count, ∃ p query, readPointer heap in_data (data + k) = some p ∧
    readPoly heap p.1 current_poly = some (values k) ∧ queriesBuf k = some query ∧
    readCipher heap query.1 = some (queries k) ∧ ∃ quotients,
      readQuotients heap query.2 = some quotients

theorem Readable.within {queriesBuf : ℕ → Option (ℕ × ℕ)} {in_data data current_poly count : ℕ}
    {values : ℕ → Poly} {queries : ℕ → Cipher}
    (readable : Readable heap queriesBuf in_data data current_poly count values queries)
    (within : heap.Within after) :
    Readable after queriesBuf in_data data current_poly count values queries := by
  intro k k_lt
  rcases readable k k_lt with ⟨p, query, points, poly, stored, cipher, quotients, shoup⟩
  exact ⟨p, query, readPointer_within within points, readPoly_within within poly, stored,
    readCipher_within within cipher, quotients, read_bind_within within shoup⟩

/-- The ciphertexts of a request can be read, if there is one. -/
def Requested (heap : Heap (ReplyWord Poly Cipher)) (nbPolys : ℕ) (subtract : Option ℕ)
    (request : Option (ℕ → Cipher)) : Prop :=
  Option.Rel (fun container ciphers => ∀ poly < nbPolys, ∃ place,
    readPointer heap container poly = some place ∧
      readCipher heap place.1 = some (ciphers poly)) subtract request

theorem Requested.within {nbPolys : ℕ} {subtract : Option ℕ}
    {request : Option (ℕ → Cipher)} (requested : Requested heap nbPolys subtract request)
    (within : heap.Within after) : Requested after nbPolys subtract request := by
  cases requested with
  | none => exact .none
  | some ciphers =>
      refine .some ?_
      intro poly poly_lt
      rcases ciphers poly poly_lt with ⟨place, points, reads⟩
      exact ⟨place, readPointer_within within points, readCipher_within within reads⟩

end Reading

section Absorption

variable (crypto : LatticesBasedCryptosystem Poly Cipher) {pirParams : PIRParameters}
  {generator : ReplyGenerator Poly Cipher} {subtract : Option ℕ}
  {request : Option (ℕ → Cipher)} {lvl in_data data current_poly nbPolys : ℕ}
  {values : ℕ → Poly} {queries : ℕ → Cipher}

/-- The result is in the block that has just been allocated. -/
theorem mulandadd_alloc {p : ℕ} {query : ℕ × ℕ} {poly : Poly} {cipher quotients : Cipher}
    (result : Cipher) (polyRead : readPoly heap p current_poly = some poly)
    (cipherRead : readCipher heap query.1 = some cipher)
    (quotientsRead : readQuotients heap query.2 = some quotients) :
    mulandadd crypto (heap.alloc [.cipher result]) heap.next p query current_poly =
      some (heap.alloc [.cipher (crypto.mulandadd result poly cipher)]) := by
  have within := (Heap.Within.refl heap).alloc [.cipher result]
  have resultRead : readCipher (heap.alloc [.cipher result]) heap.next = some result :=
    readCipher_of_block (Heap.blocks_alloc_next heap _)
  have shoup : readQuotients (heap.alloc [.cipher result]) query.2 = some quotients :=
    read_bind_within within quotientsRead
  rw [mulandadd, resultRead, Option.bind_some, readPoly_within within polyRead, Option.bind_some,
    readCipher_within within cipherRead, Option.bind_some, shoup, Option.bind_some,
    Heap.write_alloc (by exact Nat.one_pos)]
  rfl

theorem absorbRange_alloc {queriesBuf : ℕ → ℕ → Option (ℕ × ℕ)} (result : Cipher)
    (readable : Readable heap (queriesBuf lvl) in_data data current_poly (pirParams.n lvl) values
      queries) {offset count : ℕ} (inside : offset + count ≤ pirParams.n lvl) :
    absorbRange crypto queriesBuf lvl in_data data heap.next current_poly offset count
        (heap.alloc [.cipher result]) =
      some (heap.alloc [.cipher (crypto.absorbRange values queries offset count result)]) := by
  rw [absorbRange]
  induction count with
  | zero => rfl
  | succ count ih =>
      rcases readable (offset + count) (by omega) with
        ⟨p, query, points, poly, stored, cipher, quotients, shoup⟩
      have within := (Heap.Within.refl heap).alloc
        [.cipher (crypto.absorbRange values queries offset count result)]
      rw [foldlM_range_succ, ih (by omega), Option.bind_some, readPointer_within within points,
        Option.bind_some, stored, Option.bind_some,
        mulandadd_alloc crypto _ poly cipher shoup]
      rfl

/-- What is subtracted from the sum of a level. -/
def levelRequest (request : Option (ℕ → Cipher)) (lvl current_poly : ℕ) : Option Cipher :=
  if lvl = 0 then request.map (fun request => request current_poly) else none

theorem subtractRequest_alloc (requested : Requested heap nbPolys subtract request)
    (poly_lt : lvl = 0 → current_poly < nbPolys) (result : Cipher) (next : ℕ) :
    subtractRequest crypto pirParams subtract lvl heap.next current_poly next
        (heap.alloc [.cipher result]) =
      some (heap.alloc [.cipher (match levelRequest request lvl current_poly with
        | some cipher => if pirParams.n lvl ≤ next then crypto.sub result cipher else result
        | none => result)]) := by
  cases requested with
  | none =>
      rw [levelRequest, Option.map_none, ite_self]
      rfl
  | @some container ciphers reads =>
      rw [levelRequest, Option.map_some, subtractRequest]
      by_cases first : lvl = 0
      · rcases reads current_poly (poly_lt first) with ⟨place, points, cipherRead⟩
        rw [if_pos first]
        dsimp only
        by_cases last : pirParams.n lvl ≤ next
        · have resultRead : readCipher (heap.alloc [.cipher result]) heap.next = some result :=
            readCipher_of_block (Heap.blocks_alloc_next heap _)
          have within := (Heap.Within.refl heap).alloc [.cipher result]
          rw [if_pos ⟨first, last⟩, if_pos last, resultRead, Option.bind_some,
            readPointer_within within points, Option.bind_some,
            readCipher_within within cipherRead, Option.bind_some, Heap.write_alloc (by exact Nat.one_pos)]
          rfl
        · rw [if_neg fun both => last both.2, if_neg last]
      · rw [if_neg first]
        dsimp only
        rw [if_neg fun both => first both.1]

/-- The array after the result of a polynomial has been computed. -/
def storedReply (pirParams : PIRParameters) (lvl current_poly reply : ℕ)
    (repliesArray : Option (List (Option ℕ))) : Option (List (Option ℕ)) :=
  if lvl = pirParams.d - 1 then
    repliesArray.map fun entries => entries.set current_poly (some reply)
  else repliesArray

/-- There is an entry for the result of a polynomial of the last level. -/
def HasEntry (pirParams : PIRParameters) (lvl current_poly : ℕ)
    (repliesArray : Option (List (Option ℕ))) : Prop :=
  lvl = pirParams.d - 1 → ∃ entries, repliesArray = some entries ∧ current_poly < entries.length

theorem storeReply_eq {repliesArray : Option (List (Option ℕ))}
    (entry : HasEntry pirParams lvl current_poly repliesArray) (reply next : ℕ) :
    storeReply pirParams lvl reply current_poly next repliesArray =
      some (if pirParams.n lvl ≤ next then storedReply pirParams lvl current_poly reply repliesArray
        else repliesArray) := by
  rw [storeReply, storedReply]
  by_cases top : lvl = pirParams.d - 1
  · rcases entry top with ⟨entries, rfl, inside⟩
    rw [if_pos top]
    by_cases last : pirParams.n lvl ≤ next
    · rw [if_pos ⟨top, last⟩, if_pos last, Option.bind_some, if_pos inside, Option.map_some]
    · rw [if_neg fun both => last both.2, if_neg last]
  · rw [if_neg fun both => top both.1, if_neg top, ite_self]

open LatticesBasedCryptosystem in
/-- The generator with the result of one polynomial so far. -/
def absorbing (generator : ReplyGenerator Poly Cipher) (pirParams : PIRParameters)
    (lvl current_poly : ℕ) (state : AbsorptionState Cipher) : ReplyGenerator Poly Cipher :=
  { generator with
    heap := generator.heap.alloc [.cipher state.result]
    repliesArray :=
      if pirParams.n lvl ≤ state.offset then
        storedReply pirParams lvl current_poly generator.heap.next generator.repliesArray
      else generator.repliesArray }

/-- The generator with the result of one polynomial. -/
def withResult (generator : ReplyGenerator Poly Cipher) (pirParams : PIRParameters)
    (lvl current_poly : ℕ) (result : Cipher) : ReplyGenerator Poly Cipher :=
  { generator with
    heap := generator.heap.alloc [.cipher result]
    repliesArray :=
      storedReply pirParams lvl current_poly generator.heap.next generator.repliesArray }

/-- A round of the loop does in its block what it does without memory. -/
theorem absorbRound_absorbing
    (readable : Readable generator.heap (generator.queriesBuf lvl) in_data data current_poly
      (pirParams.n lvl) values queries)
    (requested : Requested generator.heap nbPolys subtract request)
    (poly_lt : lvl = 0 → current_poly < nbPolys)
    (entry : HasEntry pirParams lvl current_poly generator.repliesArray)
    (state : LatticesBasedCryptosystem.AbsorptionState Cipher)
    (continues : state.offset < pirParams.n lvl) :
    absorbRound crypto pirParams subtract lvl in_data data generator.heap.next current_poly
        (state.offset, generator.absorbing pirParams lvl current_poly state) =
      some ((crypto.absorbRound (pirParams.n lvl) values queries
          (levelRequest request lvl current_poly) state).offset,
        generator.absorbing pirParams lvl current_poly
          (crypto.absorbRound (pirParams.n lvl) values queries
            (levelRequest request lvl current_poly) state)) := by
  have before : (generator.absorbing pirParams lvl current_poly state).repliesArray =
      generator.repliesArray := if_neg (not_le.mpr continues)
  have range := absorbRange_alloc crypto state.result readable
    (by omega : state.offset + min 200 (pirParams.n lvl - state.offset) ≤ pirParams.n lvl)
  rw [absorbRound, before]
  dsimp only [absorbing]
  rw [range, Option.bind_some, subtractRequest_alloc crypto requested poly_lt, Option.bind_some,
    storeReply_eq entry, Option.map_some]
  cases levelRequest request lvl current_poly <;> rfl

/-- The loop on one polynomial, with the same outcome as without memory. -/
theorem absorb_lockstep (fuel : ℕ) (lvl_lt : lvl < pirParams.d)
    (readable : Readable generator.heap (generator.queriesBuf lvl) in_data data current_poly
      (pirParams.n lvl) values queries)
    (requested : Requested generator.heap nbPolys subtract request)
    (poly_lt : lvl = 0 → current_poly < nbPolys)
    (entry : HasEntry pirParams lvl current_poly generator.repliesArray) :
    Lockstep (fun after result => after = generator.withResult pirParams lvl current_poly result)
      (absorb crypto pirParams fuel subtract lvl in_data data current_poly generator)
      (crypto.absorb fuel (pirParams.n lvl) values queries
        (levelRequest request lvl current_poly)) := by
  have size_pos := pirParams.n_pos lvl lvl_lt
  let related (state : ℕ × ReplyGenerator Poly Cipher)
      (pure : LatticesBasedCryptosystem.AbsorptionState Cipher) : Prop :=
    state = (pure.offset, generator.absorbing pirParams lvl current_poly pure)
  have start : related (0, { generator with heap := generator.heap.alloc [.cipher crypto.zero] })
      ⟨0, crypto.zero⟩ := by
    show _ = (_, _)
    rw [absorbing, if_neg (not_le.mpr size_pos)]
  have loop : Lockstep (fun state pure => related state pure ∧ ¬ pure.offset < pirParams.n lvl)
      (whileLoop (fun state : ℕ × ReplyGenerator Poly Cipher => state.1 < pirParams.n lvl)
        (absorbRound crypto pirParams subtract lvl in_data data generator.heap.next current_poly)
        fuel (0, { generator with heap := generator.heap.alloc [.cipher crypto.zero] }))
      (whileLoop (fun state : LatticesBasedCryptosystem.AbsorptionState Cipher =>
          state.offset < pirParams.n lvl)
        (fun state => some (crypto.absorbRound (pirParams.n lvl) values queries
          (levelRequest request lvl current_poly) state)) fuel ⟨0, crypto.zero⟩) := by
    apply (Lockstep.whileLoop fuel start ?_ ?_).mono
    · intro state pure _ stops same
      have finished := whileLoop_stops stops
      exact ⟨same, of_decide_eq_false finished⟩
    · rintro state pure rfl
      rfl
    · rintro state pure rfl continues
      rw [absorbRound_absorbing crypto readable requested poly_lt entry pure
        (of_decide_eq_true continues)]
      exact .some rfl
  apply loop.map
  rintro state pure ⟨rfl, stops⟩
  rw [absorbing, withResult, if_pos (not_lt.mp stops)]

end Absorption

section Levels

variable (crypto : LatticesBasedCryptosystem Poly Cipher) {pirParams : PIRParameters}
  {generator : ReplyGenerator Poly Cipher} {subtract : Option ℕ}
  {request : Option (ℕ → Cipher)} {lvl in_data nbPolys : ℕ}
  {inData : ℕ → ℕ → Poly} {queries : ℕ → Cipher}

/-- A later state of a generator that has changed but its memory and its replies. -/
structure Continues (generator after : ReplyGenerator Poly Cipher) : Prop where
  rest : after = { generator with heap := after.heap, repliesArray := after.repliesArray }
  within : generator.heap.Within after.heap

theorem Continues.refl (generator : ReplyGenerator Poly Cipher) :
    Continues generator generator :=
  ⟨rfl, Heap.Within.refl generator.heap⟩

theorem Continues.trans {middle after : ReplyGenerator Poly Cipher}
    (first : Continues generator middle) (second : Continues middle after) :
    Continues generator after := by
  refine ⟨?_, first.within.trans second.within⟩
  rw [second.rest, first.rest]

theorem Continues.queriesBuf {after : ReplyGenerator Poly Cipher}
    (continues : Continues generator after) : after.queriesBuf = generator.queriesBuf := by
  rw [continues.rest]

theorem Continues.currentMaxNbPolys {after : ReplyGenerator Poly Cipher}
    (continues : Continues generator after) :
    after.currentMaxNbPolys = generator.currentMaxNbPolys := by
  rw [continues.rest]

theorem continues_withResult (lvl current_poly : ℕ) (result : Cipher) :
    Continues generator (generator.withResult pirParams lvl current_poly result) :=
  ⟨rfl, (Heap.Within.refl generator.heap).alloc _⟩

/-- The array of replies, of the given length, is only changed at the last level. -/
structure Stores (pirParams : PIRParameters) (lvl : ℕ) (before after : Option (List (Option ℕ)))
    (count : ℕ) (reply : ℕ → ℕ) : Prop where
  kept : lvl ≠ pirParams.d - 1 → after = before
  stored : lvl = pirParams.d - 1 → ∀ entries, before = some entries →
    ∃ filled, after = some filled ∧ filled.length = entries.length ∧
      ∀ poly < count, filled[poly]? = some (some (reply poly))

theorem Stores.refl (pirParams : PIRParameters) (lvl : ℕ) (entries : Option (List (Option ℕ)))
    (reply : ℕ → ℕ) : Stores pirParams lvl entries entries 0 reply :=
  ⟨fun _ => rfl, fun _ filled filled_eq =>
    ⟨filled, filled_eq, rfl, fun poly poly_lt => absurd poly_lt (Nat.not_lt_zero poly)⟩⟩

theorem Stores.step {before after : Option (List (Option ℕ))} {count : ℕ} {reply : ℕ → ℕ}
    (stores : Stores pirParams lvl before after count reply)
    (room : lvl = pirParams.d - 1 → ∃ entries, before = some entries ∧ count < entries.length) :
    Stores pirParams lvl before (storedReply pirParams lvl count (reply count) after)
      (count + 1) reply := by
  constructor
  · intro earlier
    rw [storedReply, if_neg earlier, stores.kept earlier]
  · intro top entries entries_eq
    rcases stores.stored top entries entries_eq with ⟨filled, rfl, length_eq, replies⟩
    rcases room top with ⟨sameEntries, same_eq, inside⟩
    obtain rfl := Option.some.inj (entries_eq.symm.trans same_eq)
    refine ⟨filled.set count (some (reply count)), ?_, by rw [List.length_set, length_eq], ?_⟩
    · rw [storedReply, if_pos top, Option.map_some]
    · intro poly poly_lt
      rw [List.getElem?_set]
      split
      · rename_i same
        rw [if_pos (by omega), same]
      · exact replies poly (by omega)

theorem Stores.hasEntry {before after : Option (List (Option ℕ))} {count : ℕ} {reply : ℕ → ℕ}
    (stores : Stores pirParams lvl before after count reply) {current_poly : ℕ}
    (room : lvl = pirParams.d - 1 →
      ∃ entries, before = some entries ∧ current_poly < entries.length) :
    HasEntry pirParams lvl current_poly after := by
  intro top
  rcases room top with ⟨entries, before_eq, inside⟩
  rcases stores.stored top entries before_eq with ⟨filled, after_eq, length_eq, -⟩
  exact ⟨filled, after_eq, length_eq ▸ inside⟩

/-- Some results of a block of elements are in memory, one after the other. -/
structure BlockResults (crypto : LatticesBasedCryptosystem Poly Cipher)
    (pirParams : PIRParameters) (lvl : ℕ) (generator : ReplyGenerator Poly Cipher) (count : ℕ)
    (state : ReplyGenerator Poly Cipher × List ℕ) (results : ℕ → Cipher) : Prop where
  continues : Continues generator state.1
  next_eq : state.1.heap.next = generator.heap.next + count
  addresses : state.2 = (List.range count).map (generator.heap.next + ·)
  ciphers : ∀ poly < count,
    state.1.heap.blocks (generator.heap.next + poly) = some [.cipher (results poly)]
  outside : ∀ poly, count ≤ poly → results poly = crypto.zero
  live : state.1.heap.live = generator.heap.live + count
  stores : Stores pirParams lvl generator.repliesArray state.1.repliesArray count
    (generator.heap.next + ·)

variable {crypto} in
theorem BlockResults.step {count : ℕ} {state : ReplyGenerator Poly Cipher × List ℕ}
    {results : ℕ → Cipher} (holds : BlockResults crypto pirParams lvl generator count state results)
    (room : lvl = pirParams.d - 1 →
      ∃ entries, generator.repliesArray = some entries ∧ count < entries.length)
    (result : Cipher) :
    BlockResults crypto pirParams lvl generator (count + 1)
      (state.1.withResult pirParams lvl count result, state.2 ++ [state.1.heap.next])
      (Function.update results count result) where
  continues := holds.continues.trans (continues_withResult lvl count result)
  next_eq := congrArg (· + 1) holds.next_eq
  addresses := by
    rw [List.range_succ, List.map_append, holds.addresses, holds.next_eq, List.map_singleton]
  ciphers := by
    intro poly poly_lt
    rcases Nat.lt_succ_iff_lt_or_eq.mp poly_lt with before | rfl
    · rw [Function.update_of_ne before.ne]
      exact Heap.blocks_alloc (holds.ciphers poly before)
    · rw [Function.update_self, ← holds.next_eq]
      exact Heap.blocks_alloc_next _ _
  outside := by
    intro poly poly_ge
    rw [Function.update_of_ne (by omega)]
    exact holds.outside poly (by omega)
  live := by
    rw [withResult, Heap.live_alloc, holds.live, Nat.add_assoc]
  stores := by
    have stored := holds.stores.step room
    rw [← holds.next_eq] at stored
    exact stored

/-- The elements of a level, and its request and queries, can be read. -/
structure LevelInput (pirParams : PIRParameters) (lvl in_data nbPolys : ℕ)
    (subtract : Option ℕ) (request : Option (ℕ → Cipher)) (inData : ℕ → ℕ → Poly)
    (queries : ℕ → Cipher) (generator : ReplyGenerator Poly Cipher) : Prop where
  readable : ∀ j < pirParams.nbElements (lvl + 1), ∀ poly < generator.currentMaxNbPolys,
    Readable generator.heap (generator.queriesBuf lvl) in_data (pirParams.n lvl * j) poly
      (pirParams.n lvl) (fun k => inData (pirParams.n lvl * j + k) poly) queries
  requested : Requested generator.heap nbPolys subtract request
  polys_le : lvl = 0 → generator.currentMaxNbPolys ≤ nbPolys
  polys_lt : generator.currentMaxNbPolys < 2 ^ 32
  room : lvl = pirParams.d - 1 →
    ∃ entries, generator.repliesArray = some entries ∧
      generator.currentMaxNbPolys ≤ entries.length

theorem LevelInput.of_continues {after : ReplyGenerator Poly Cipher}
    (input : LevelInput pirParams lvl in_data nbPolys subtract request inData queries generator)
    (continues : Continues generator after)
    (room : lvl = pirParams.d - 1 → ∃ entries, after.repliesArray = some entries ∧
      after.currentMaxNbPolys ≤ entries.length) :
    LevelInput pirParams lvl in_data nbPolys subtract request inData queries after where
  readable := by
    intro j j_lt poly poly_lt
    rw [continues.currentMaxNbPolys] at poly_lt
    rw [continues.queriesBuf]
    exact (input.readable j j_lt poly poly_lt).within continues.within
  requested := input.requested.within continues.within
  polys_le := continues.currentMaxNbPolys ▸ input.polys_le
  polys_lt := continues.currentMaxNbPolys ▸ input.polys_lt
  room := room

/-- The reply for one block of elements, with the same outcome as without memory. -/
theorem replyBlock_lockstep (fuel : ℕ) (lvl_lt : lvl < pirParams.d)
    (input : LevelInput pirParams lvl in_data nbPolys subtract request inData queries generator)
    {queriesBuf : ℕ → ℕ → Cipher} (queries_eq : queriesBuf lvl = queries)
    {reached : LatticesBasedCryptosystem.ReplyState Poly Cipher}
    (inData_eq : reached.inData = inData)
    (polys_eq : reached.currentMaxNbPolys = generator.currentMaxNbPolys)
    {j : ℕ} (j_lt : j < pirParams.nbElements (lvl + 1)) :
    Lockstep (BlockResults crypto pirParams lvl generator generator.currentMaxNbPolys)
      (replyBlock crypto pirParams fuel subtract lvl in_data j generator)
      (crypto.replyBlock pirParams fuel queriesBuf request lvl reached j) := by
  rw [replyBlock, if_pos input.polys_lt, LatticesBasedCryptosystem.replyBlock, polys_eq, inData_eq,
    queries_eq]
  have room : ∀ poly < generator.currentMaxNbPolys, lvl = pirParams.d - 1 →
      ∃ entries, generator.repliesArray = some entries ∧ poly < entries.length := by
    intro poly poly_lt top
    rcases input.room top with ⟨entries, entries_eq, length_le⟩
    exact ⟨entries, entries_eq, poly_lt.trans_le length_le⟩
  apply Lockstep.foldlM_fillLoop (BlockResults crypto pirParams lvl generator)
  · exact ⟨Continues.refl generator, rfl, rfl,
      fun poly poly_lt => absurd poly_lt (Nat.not_lt_zero poly), fun _ _ => rfl, rfl,
      Stores.refl ..⟩
  · intro state results poly poly_lt holds
    have readable := (input.readable j j_lt poly poly_lt).within holds.continues.within
    rw [← holds.continues.queriesBuf] at readable
    have absorbs := absorb_lockstep crypto fuel lvl_lt readable
      (input.requested.within holds.continues.within)
      (fun first => poly_lt.trans_le (input.polys_le first))
      (holds.stores.hasEntry (room poly poly_lt))
    apply absorbs.map_left
    rintro after result rfl
    exact holds.step (room poly poly_lt) result

/-- The results of some blocks of elements are in memory, one after the other. -/
structure LevelResults (crypto : LatticesBasedCryptosystem Poly Cipher)
    (pirParams : PIRParameters) (lvl : ℕ) (generator : ReplyGenerator Poly Cipher) (count : ℕ)
    (state : ReplyGenerator Poly Cipher × List (List ℕ)) (replies : ℕ → ℕ → Cipher) : Prop where
  continues : Continues generator state.1
  next_eq : state.1.heap.next = generator.heap.next + count * generator.currentMaxNbPolys
  addresses : state.2 = (List.range count).map fun j =>
    (List.range generator.currentMaxNbPolys).map
      (generator.heap.next + j * generator.currentMaxNbPolys + ·)
  ciphers : ∀ j < count, ∀ poly < generator.currentMaxNbPolys,
    state.1.heap.blocks (generator.heap.next + j * generator.currentMaxNbPolys + poly) =
      some [.cipher (replies j poly)]
  outside : ∀ j < count, ∀ poly, generator.currentMaxNbPolys ≤ poly → replies j poly = crypto.zero
  live : state.1.heap.live = generator.heap.live + count * generator.currentMaxNbPolys
  kept : lvl ≠ pirParams.d - 1 ∨ count = 0 → state.1.repliesArray = generator.repliesArray
  stored : lvl = pirParams.d - 1 → count = 1 → ∀ entries, generator.repliesArray = some entries →
    ∃ filled, state.1.repliesArray = some filled ∧ filled.length = entries.length ∧
      ∀ poly < generator.currentMaxNbPolys,
        filled[poly]? = some (some (generator.heap.next + poly))

variable {crypto} in
theorem LevelResults.step {count : ℕ} {state : ReplyGenerator Poly Cipher × List (List ℕ)}
    {replies : ℕ → ℕ → Cipher}
    (holds : LevelResults crypto pirParams lvl generator count state replies)
    (single : lvl = pirParams.d - 1 → count = 0)
    {block : ReplyGenerator Poly Cipher × List ℕ} {results : ℕ → Cipher}
    (more : BlockResults crypto pirParams lvl state.1 generator.currentMaxNbPolys block results) :
    LevelResults crypto pirParams lvl generator (count + 1) (block.1, state.2 ++ [block.2])
      (Function.update replies count results) where
  continues := holds.continues.trans more.continues
  next_eq := by rw [more.next_eq, holds.next_eq, Nat.succ_mul, Nat.add_assoc]
  addresses := by
    rw [List.range_succ, List.map_append, List.map_singleton, holds.addresses, more.addresses,
      holds.next_eq]
  ciphers := by
    intro j j_lt poly poly_lt
    rcases Nat.lt_succ_iff_lt_or_eq.mp j_lt with before | rfl
    · rw [Function.update_of_ne before.ne]
      exact more.continues.within _ _ (holds.ciphers j before poly poly_lt)
    · rw [Function.update_self, ← holds.next_eq]
      exact more.ciphers poly poly_lt
  outside := by
    intro j j_lt
    rcases Nat.lt_succ_iff_lt_or_eq.mp j_lt with before | rfl
    · rw [Function.update_of_ne before.ne]
      exact holds.outside j before
    · rw [Function.update_self]
      exact more.outside
  live := by rw [more.live, holds.live, Nat.succ_mul, Nat.add_assoc]
  kept := by
    rintro (earlier | impossible)
    · rw [more.stores.kept earlier, holds.kept (Or.inl earlier)]
    · exact absurd impossible (Nat.succ_ne_zero count)
  stored := by
    intro top _ entries entries_eq
    have first := single top
    rw [← holds.kept (Or.inr first)] at entries_eq
    rcases more.stores.stored top entries entries_eq with ⟨filled, filled_eq, length_eq, here⟩
    refine ⟨filled, filled_eq, length_eq, ?_⟩
    intro poly poly_lt
    rw [here poly poly_lt, holds.next_eq, first, Nat.zero_mul, Nat.add_zero]

/-- All blocks of a level, with the same outcome as without memory. -/
theorem replyBlocks_lockstep (fuel : ℕ) (lvl_lt : lvl < pirParams.d)
    (input : LevelInput pirParams lvl in_data nbPolys subtract request inData queries generator)
    {queriesBuf : ℕ → ℕ → Cipher} (queries_eq : queriesBuf lvl = queries)
    {reached : LatticesBasedCryptosystem.ReplyState Poly Cipher}
    (inData_eq : reached.inData = inData)
    (polys_eq : reached.currentMaxNbPolys = generator.currentMaxNbPolys) :
    Lockstep (LevelResults crypto pirParams lvl generator (pirParams.nbElements (lvl + 1)))
      (replyBlocks crypto pirParams fuel subtract lvl in_data generator)
      (fillLoop (pirParams.nbElements (lvl + 1))
        (crypto.replyBlock pirParams fuel queriesBuf request lvl reached)
        (fun _ _ => crypto.zero)) := by
  have d_pos := pirParams.d_pos
  rw [replyBlocks]
  apply Lockstep.foldlM_fillLoop (LevelResults crypto pirParams lvl generator)
  · exact ⟨Continues.refl generator, by simp, rfl,
      fun j j_lt => absurd j_lt (Nat.not_lt_zero j),
      fun j j_lt => absurd j_lt (Nat.not_lt_zero j), by simp, fun _ => rfl,
      fun _ impossible => absurd impossible Nat.zero_ne_one⟩
  · intro state replies j j_lt holds
    have single : lvl = pirParams.d - 1 → j = 0 := by
      intro top
      have last : lvl + 1 = pirParams.d := by omega
      rw [last, pirParams.nbElements_d] at j_lt
      omega
    have polys := holds.continues.currentMaxNbPolys
    have room : lvl = pirParams.d - 1 → ∃ entries, state.1.repliesArray = some entries ∧
        state.1.currentMaxNbPolys ≤ entries.length := by
      intro top
      rw [holds.kept (Or.inr (single top)), polys]
      exact input.room top
    have block := replyBlock_lockstep crypto fuel lvl_lt
      (input.of_continues holds.continues room) queries_eq inData_eq (polys_eq.trans polys.symm)
      j_lt
    rw [polys] at block
    apply block.map_left
    intro after results more
    exact holds.step single more

end Levels

section Elements

variable {base : Heap (ReplyWord Poly Cipher)} {elements : List (List Poly)} {first : ℕ}

/-- Some elements in blocks of their own, of two blocks each. -/
structure Laid (base : Heap (ReplyWord Poly Cipher)) (elements : List (List Poly))
    (state : Heap (ReplyWord Poly Cipher) × List ℕ) : Prop where
  within : base.Within state.1
  next_eq : state.1.next = base.next + 2 * elements.length
  places : state.2 = (List.range elements.length).map (base.next + 2 * · + 1)
  buffers : ∀ e polys, elements[e]? = some polys →
    state.1.blocks (base.next + 2 * e) = some (polys.map .poly)
  pointers : ∀ e polys, elements[e]? = some polys → state.1.blocks (base.next + 2 * e + 1) =
    some ((List.range polys.length).map fun poly => .pointer (base.next + 2 * e) poly)
  live : state.1.live = base.live + 2 * elements.length

theorem laid_nil (base : Heap (ReplyWord Poly Cipher)) : Laid base [] (base, []) :=
  ⟨Heap.Within.refl base, rfl, rfl, fun e polys here => absurd here (by simp),
    fun e polys here => absurd here (by simp), rfl⟩

theorem Laid.step {state : Heap (ReplyWord Poly Cipher) × List ℕ}
    (laid : Laid base elements state) (polys : List Poly) :
    Laid base (elements ++ [polys])
      ((allocElement state.1 polys).1, state.2 ++ [(allocElement state.1 polys).2]) := by
  have length_eq : (elements ++ [polys]).length = elements.length + 1 := List.length_append
  constructor
  · exact (laid.within.alloc _).alloc _
  · rw [length_eq, allocElement]
    show state.1.next + 1 + 1 = _
    rw [laid.next_eq]
    omega
  · rw [length_eq, List.range_succ, List.map_append, laid.places, List.map_singleton]
    show _ ++ [state.1.next + 1] = _
    rw [laid.next_eq]
  · intro e other here
    rcases getElem?_concat_cases here with before | ⟨rfl, rfl⟩
    · exact Heap.blocks_alloc (Heap.blocks_alloc (laid.buffers e other before))
    · rw [← laid.next_eq]
      exact Heap.blocks_alloc (Heap.blocks_alloc_next state.1 _)
  · intro e other here
    rcases getElem?_concat_cases here with before | ⟨rfl, rfl⟩
    · exact Heap.blocks_alloc (Heap.blocks_alloc (laid.pointers e other before))
    · rw [← laid.next_eq]
      exact Heap.blocks_alloc_next _ _
  · rw [length_eq, allocElement, Heap.live_alloc, Heap.live_alloc, laid.live]
    omega

/-- Some elements in memory, and after them a block of pointers to them. -/
structure HoldsElements (heap : Heap (ReplyWord Poly Cipher)) (first : ℕ)
    (elements : List (List Poly)) : Prop where
  buffers : ∀ e polys, elements[e]? = some polys →
    heap.blocks (first + 2 * e) = some (polys.map .poly)
  pointers : ∀ e polys, elements[e]? = some polys → heap.blocks (first + 2 * e + 1) =
    some ((List.range polys.length).map fun poly => .pointer (first + 2 * e) poly)
  in_data : heap.blocks (first + 2 * elements.length) =
    some ((List.range elements.length).map fun e => .pointer (first + 2 * e + 1) 0)

theorem Laid.holdsElements {state : Heap (ReplyWord Poly Cipher) × List ℕ}
    (laid : Laid base elements state) :
    HoldsElements (state.1.alloc (state.2.map fun p => .pointer p 0)) base.next elements where
  buffers e polys here := Heap.blocks_alloc (laid.buffers e polys here)
  pointers e polys here := Heap.blocks_alloc (laid.pointers e polys here)
  in_data := by
    rw [← laid.next_eq, Heap.blocks_alloc_next, laid.places, List.map_map]
    rfl

theorem HoldsElements.within (holds : HoldsElements heap first elements)
    (within : heap.Within after) : HoldsElements after first elements where
  buffers e polys here := within _ _ (holds.buffers e polys here)
  pointers e polys here := within _ _ (holds.pointers e polys here)
  in_data := within _ _ holds.in_data

theorem HoldsElements.of_same (holds : HoldsElements heap first elements)
    (same : ∀ other, first ≤ other → after.blocks other = heap.blocks other) :
    HoldsElements after first elements where
  buffers e polys here := by
    rw [same _ (by omega)]
    exact holds.buffers e polys here
  pointers e polys here := by
    rw [same _ (by omega)]
    exact holds.pointers e polys here
  in_data := by
    rw [same _ (by omega)]
    exact holds.in_data

theorem HoldsElements.readPointer_eq (holds : HoldsElements heap first elements) {e : ℕ}
    (e_lt : e < elements.length) :
    readPointer heap (first + 2 * elements.length) e = some (first + 2 * e + 1, 0) := by
  rw [readPointer, Heap.read_of_block holds.in_data, List.getElem?_map, List.getElem?_range e_lt]
  rfl

theorem HoldsElements.readPoly_eq (holds : HoldsElements heap first elements) {e poly : ℕ}
    {polys : List Poly} {value : Poly} (here : elements[e]? = some polys)
    (value_eq : polys[poly]? = some value) :
    readPoly heap (first + 2 * e + 1) poly = some value := by
  have poly_lt : poly < polys.length := (List.getElem?_eq_some_iff.mp value_eq).1
  have points : readPointer heap (first + 2 * e + 1) poly = some (first + 2 * e, poly) := by
    rw [readPointer, Heap.read_of_block (holds.pointers e polys here), List.getElem?_map,
      List.getElem?_range poly_lt]
    rfl
  rw [readPoly, points, Option.bind_some, Heap.read_of_block (holds.buffers e polys here),
    List.getElem?_map, value_eq]
  rfl

/-- The blocks of elements that came later than some heap are freed, and no others. -/
theorem HoldsElements.freeElements_spec {start : Heap (ReplyWord Poly Cipher)}
    (holds : HoldsElements heap first elements) (within : start.Within heap)
    (later : start.next ≤ first) (nonempty : ∀ polys ∈ elements, polys ≠ [])
    (length_lt : elements.length < 2 ^ 31) :
    ∃ after, freeElements (first + 2 * elements.length) elements.length heap = some after ∧
      start.Within after ∧ after.next = heap.next ∧
      (∀ other, first + 2 * elements.length < other → after.blocks other = heap.blocks other) ∧
      after.live + (2 * elements.length + 1) = heap.live := by
  have run : ∀ count ≤ elements.length, ∃ middle,
      (List.range count).foldlM (fun heap j =>
        (readPointer heap (first + 2 * elements.length) j).bind fun p =>
          (readPointer heap p.1 0).bind fun start =>
            (freePointer heap start).bind fun heap => freePointer heap p) heap = some middle ∧
      start.Within middle ∧ middle.next = heap.next ∧
      (∀ other, first + 2 * count ≤ other → middle.blocks other = heap.blocks other) ∧
      middle.live + 2 * count = heap.live := by
    intro count
    induction count with
    | zero => exact fun _ => ⟨heap, rfl, within, rfl, fun _ _ => rfl, rfl⟩
    | succ count ih =>
        intro count_lt
        rcases ih (Nat.le_of_succ_le count_lt) with ⟨middle, runs, kept, next_eq, same, live_eq⟩
        have here : elements[count]? = some elements[count] := List.getElem?_eq_getElem count_lt
        have polys_pos : 0 < elements[count].length :=
          List.length_pos_iff.mpr (nonempty _ (List.getElem_mem count_lt))
        have points : readPointer middle (first + 2 * elements.length) count =
            some (first + 2 * count + 1, 0) := by
          rw [← holds.readPointer_eq count_lt, readPointer, readPointer, Heap.read, Heap.read,
            same _ (by omega)]
        have starts : readPointer middle (first + 2 * count + 1) 0 =
            some (first + 2 * count, 0) := by
          rw [readPointer, Heap.read, same _ (by omega), holds.pointers count _ here,
            Option.bind_some, List.getElem?_map, List.getElem?_range polys_pos]
          rfl
        have buffer := holds.buffers count _ here
        have pointers := holds.pointers count _ here
        rw [← same _ (by omega)] at buffer pointers
        rcases Heap.free_spec buffer with ⟨inner, firstFree, inner_next, -, innerSame⟩
        have pointersThere := innerSame (first + 2 * count + 1) (by omega)
        rcases Heap.free_spec (pointersThere.trans pointers) with
          ⟨last, secondFree, last_next, -, lastSame⟩
        refine ⟨last, ?_, ?_, by rw [last_next, inner_next, next_eq], ?_, ?_⟩
        · rw [foldlM_range_succ, runs, Option.bind_some, points, Option.bind_some, starts,
            Option.bind_some, freePointer, if_pos rfl, firstFree, Option.bind_some, freePointer,
            if_pos rfl, secondFree]
        · exact (kept.free firstFree (by omega)).free secondFree (by omega)
        · intro other other_ge
          rw [lastSame other (by omega), innerSame other (by omega), same other (by omega)]
        · have firstLive := Heap.live_free firstFree
          have secondLive := Heap.live_free secondFree
          omega
  rcases run elements.length le_rfl with ⟨middle, runs, kept, next_eq, same, live_eq⟩
  have inData := holds.in_data
  rw [← same _ le_rfl] at inData
  rcases Heap.free_spec inData with ⟨after, frees, after_next, -, afterSame⟩
  refine ⟨after, ?_, kept.free frees (by omega), by rw [after_next, next_eq], ?_, ?_⟩
  · rw [freeElements, if_pos length_lt, runs, Option.bind_some, frees]
  · intro other other_gt
    rw [afterSame other (by omega), same other (by omega)]
  · have freed := Heap.live_free frees
    omega

end Elements

section Recursion

variable (crypto : LatticesBasedCryptosystem Poly Cipher) {pirParams : PIRParameters}
  {start generator : ReplyGenerator Poly Cipher} {subtract : Option ℕ}
  {request : Option (ℕ → Cipher)} {lvl nbPolys : ℕ}

/-- The polynomials that some ciphertexts are cut into. -/
def reimported (polys : ℕ) (ciphers : ℕ → Cipher) : List Poly :=
  (List.range (crypto.publicParams.deserializedPolys polys crypto.ciphertextBitsize)).map
    (crypto.deserializeDataNFL ciphers polys)

theorem deserializeElement_eq {first polys : ℕ} {ciphers : ℕ → Cipher}
    (blocks : ∀ poly < polys, heap.blocks (first + poly) = some [.cipher (ciphers poly)])
    (outside : ∀ poly, polys ≤ poly → ciphers poly = crypto.zero) :
    deserializeElement crypto heap ((List.range polys).map (first + ·)) =
      some (allocElement heap (reimported crypto polys ciphers)) := by
  have reads : ((List.range polys).map (first + ·)).mapM (readCipher heap) =
      some ((List.range polys).map ciphers) := by
    rw [List.mapM_map]
    apply mapM_eq_some
    intro poly poly_mem
    exact readCipher_of_block (blocks poly (List.mem_range.mp poly_mem))
  have values : (fun k => ((List.range polys).map ciphers).getD k crypto.zero) = ciphers := by
    funext k
    rw [List.getD_eq_getElem?_getD, List.getElem?_map]
    rcases Nat.lt_or_ge k polys with inside | beyond
    · rw [List.getElem?_range inside]
      rfl
    · rw [List.getElem?_eq_none (by rw [List.length_range]; exact beyond), outside k beyond]
      rfl
  rw [deserializeElement, reads, Option.map_some, values, List.length_map, List.length_range]
  rfl

/-- All results of a level are cut into the elements of the next one. -/
theorem LevelResults.fromResulttoInData_spec {count : ℕ}
    {state : ReplyGenerator Poly Cipher × List (List ℕ)} {replies : ℕ → ℕ → Cipher}
    (results : LevelResults crypto pirParams lvl generator count state replies)
    {middle : ReplyGenerator Poly Cipher} (polys_eq : middle.currentMaxNbPolys =
      generator.currentMaxNbPolys)
    (same : ∀ other, generator.heap.next ≤ other →
      middle.heap.blocks other = state.1.heap.blocks other) :
    ∃ heap, fromResulttoInData crypto state.2 middle =
        some ({ middle with
            heap
            currentMaxNbPolys := crypto.reimportNbPolys generator.currentMaxNbPolys },
          middle.heap.next + 2 * count) ∧
      middle.heap.Within heap ∧ heap.next = middle.heap.next + 2 * count + 1 ∧
      HoldsElements heap middle.heap.next ((List.range count).map fun j =>
        reimported crypto generator.currentMaxNbPolys (replies j)) ∧
      heap.live = middle.heap.live + (2 * count + 1) := by
  have run : ∀ done ≤ count, ∃ reached,
      ((List.range done).map fun j => (List.range generator.currentMaxNbPolys).map
        (generator.heap.next + j * generator.currentMaxNbPolys + ·)).foldlM
          (fun state ciphers => (deserializeElement crypto state.1 ciphers).map fun element =>
            (element.1, state.2 ++ [element.2])) (middle.heap, []) = some reached ∧
      Laid middle.heap ((List.range done).map fun j =>
        reimported crypto generator.currentMaxNbPolys (replies j)) reached := by
    intro done
    induction done with
    | zero => exact fun _ => ⟨_, rfl, laid_nil middle.heap⟩
    | succ done ih =>
        intro done_lt
        rcases ih (Nat.le_of_succ_le done_lt) with ⟨reached, runs, laid⟩
        have blocks : ∀ poly < generator.currentMaxNbPolys, reached.1.blocks
            (generator.heap.next + done * generator.currentMaxNbPolys + poly) =
              some [.cipher (replies done poly)] := by
          intro poly poly_lt
          apply laid.within
          rw [same _ (by omega)]
          exact results.ciphers done done_lt poly poly_lt
        have element := deserializeElement_eq crypto blocks (results.outside done done_lt)
        let added := allocElement reached.1
          (reimported crypto generator.currentMaxNbPolys (replies done))
        refine ⟨(added.1, reached.2 ++ [added.2]), ?_, ?_⟩
        · rw [List.range_succ, List.map_append, List.map_singleton, List.foldlM_append, runs,
            Option.bind_eq_bind, Option.bind_some]
          show Option.bind (Option.map _ (deserializeElement crypto reached.1 _)) some = _
          rw [element]
          rfl
        · rw [List.range_succ, List.map_append, List.map_singleton]
          exact laid.step _
  rcases run count le_rfl with ⟨reached, runs, laid⟩
  have length_eq : ((List.range count).map fun j =>
      reimported crypto generator.currentMaxNbPolys (replies j)).length = count := by
    rw [List.length_map, List.length_range]
  have next_eq := laid.next_eq
  have live_eq := laid.live
  rw [length_eq] at next_eq live_eq
  refine ⟨_, ?_, laid.within.alloc _, ?_, laid.holdsElements, ?_⟩
  · rw [fromResulttoInData, results.addresses, runs, Option.map_some, next_eq, polys_eq]
  · rw [Heap.next_alloc, next_eq]
  · rw [Heap.live_alloc, live_eq, Nat.add_assoc]

/-- The addresses of the results of a level are consecutive. -/
theorem flatten_addresses (first polys count : ℕ) :
    ((List.range count).map fun j => (List.range polys).map (first + j * polys + ·)).flatten =
      (List.range (count * polys)).map (first + ·) := by
  induction count with
  | zero => simp
  | succ count ih =>
      rw [List.range_succ, List.map_append, List.flatten_append, ih, Nat.succ_mul, List.range_add,
        List.map_append, List.map_singleton, List.flatten_singleton, List.map_map]
      congr 1
      apply List.map_congr_left
      intro poly _
      exact Nat.add_assoc _ _ _

/-- The results of a level are freed, and no other blocks. -/
theorem LevelResults.freeAll_spec {count : ℕ}
    {state : ReplyGenerator Poly Cipher × List (List ℕ)} {replies : ℕ → ℕ → Cipher}
    (results : LevelResults crypto pirParams lvl generator count state replies)
    (there : ∀ other words, generator.heap.next ≤ other →
      state.1.heap.blocks other = some words → heap.blocks other = some words) :
    ∃ after, heap.freeAll state.2.flatten = some after ∧ after.next = heap.next ∧
      (∀ other, other < generator.heap.next ∨ state.1.heap.next ≤ other →
        after.blocks other = heap.blocks other) ∧
      after.live + count * generator.currentMaxNbPolys = heap.live := by
  have flat : state.2.flatten =
      (List.range (count * generator.currentMaxNbPolys)).map (generator.heap.next + ·) := by
    rw [results.addresses, flatten_addresses]
  have next_eq := results.next_eq
  have distinct : state.2.flatten.Nodup := by
    rw [flat]
    exact List.nodup_range.map fun _ _ => Nat.add_left_cancel
  have present : ∀ address ∈ state.2.flatten, (heap.blocks address).isSome := by
    intro address address_mem
    rw [flat] at address_mem
    rcases List.mem_map.mp address_mem with ⟨place, place_mem, rfl⟩
    have place_lt := List.mem_range.mp place_mem
    have polys_pos : 0 < generator.currentMaxNbPolys := by
      by_contra none
      rw [Nat.eq_zero_of_not_pos none, Nat.mul_zero] at place_lt
      exact absurd place_lt (Nat.not_lt_zero place)
    have block := results.ciphers (place / generator.currentMaxNbPolys)
      ((Nat.div_lt_iff_lt_mul polys_pos).mpr place_lt) _ (Nat.mod_lt place polys_pos)
    rw [Nat.add_assoc, Nat.div_add_mod'] at block
    rw [there _ _ (Nat.le_add_right _ _) block]
    rfl
  rcases Heap.freeAll_spec distinct present with ⟨after, frees, freed_next, kept⟩
  refine ⟨after, frees, freed_next, ?_, ?_⟩
  · intro other apart
    apply kept
    rw [flat, List.mem_map]
    rintro ⟨place, place_mem, rfl⟩
    have place_lt := List.mem_range.mp place_mem
    omega
  · have freed := Heap.live_freeAll frees
    rw [flat, List.length_map, List.length_range] at freed
    exact freed

/-- The sizes of all levels fit the variables of the generator. -/
structure LevelsFit (pirParams : PIRParameters) (nbPolys : ℕ) : Prop where
  elements_lt : ∀ lvl < pirParams.d, 0 < lvl → pirParams.nbElements lvl < 2 ^ 31
  polys_lt : ∀ lvl < pirParams.d, crypto.levelPolys nbPolys lvl < 2 ^ 32
  deserialized_pos : ∀ lvl, lvl + 1 < pirParams.d →
    0 < crypto.publicParams.deserializedPolys (crypto.levelPolys nbPolys lvl)
      crypto.ciphertextBitsize
  reimports_le : ∀ lvl, lvl + 1 < pirParams.d → crypto.levelPolys nbPolys (lvl + 1) ≤
    crypto.publicParams.deserializedPolys (crypto.levelPolys nbPolys lvl) crypto.ciphertextBitsize

/-- What a generator that is about to reply can read. -/
structure Prepared (pirParams : PIRParameters) (nbPolys : ℕ) (subtract : Option ℕ)
    (request : Option (ℕ → Cipher)) (query : ℕ → ℕ → Cipher)
    (start : ReplyGenerator Poly Cipher) : Prop where
  queries : ∀ dim < pirParams.d, ∀ nbr < pirParams.n dim, ∃ place quotients,
    start.queriesBuf dim nbr = some place ∧
      readCipher start.heap place.1 = some (query dim nbr) ∧
      readQuotients start.heap place.2 = some quotients
  requested : Requested start.heap nbPolys subtract request
  room : ∃ entries, start.repliesArray = some entries ∧
    crypto.levelPolys nbPolys (pirParams.d - 1) ≤ entries.length

/-- The elements of a level in memory. Those of later levels are in blocks of their own. -/
structure LevelElements (pirParams : PIRParameters) (start heap : Heap (ReplyWord Poly Cipher))
    (lvl polys first : ℕ) (elements : List (List Poly)) (inData : ℕ → ℕ → Poly) : Prop where
  holds : HoldsElements heap first elements
  length_eq : elements.length = pirParams.nbElements lvl
  values : ∀ e < pirParams.nbElements lvl, ∃ here, elements[e]? = some here ∧
    ∀ poly < polys, here[poly]? = some (inData e poly)
  later : 0 < lvl → start.next ≤ first
  nonempty : 0 < lvl → ∀ here ∈ elements, here ≠ []

/-- The generator at the begin of a level, and the generation without memory. -/
structure AtLevel (pirParams : PIRParameters) (nbPolys : ℕ) (start : ReplyGenerator Poly Cipher)
    (lvl : ℕ) (state : ReplyGenerator Poly Cipher × ℕ)
    (reached : LatticesBasedCryptosystem.ReplyState Poly Cipher) : Prop where
  rest : state.1 = { start with
    heap := state.1.heap
    currentMaxNbPolys := state.1.currentMaxNbPolys }
  within : start.heap.Within state.1.heap
  next_le : start.heap.next ≤ state.1.heap.next
  polys : state.1.currentMaxNbPolys = crypto.levelPolys nbPolys lvl
  reachedPolys : reached.currentMaxNbPolys = crypto.levelPolys nbPolys lvl
  elements : ∃ first elements, state.2 = first + 2 * elements.length ∧
    LevelElements pirParams start.heap state.1.heap lvl (crypto.levelPolys nbPolys lvl) first
      elements reached.inData ∧ (0 < lvl → first + 2 * elements.length < state.1.heap.next)
  live : state.1.heap.live =
    start.heap.live + if lvl = 0 then 0 else 2 * pirParams.nbElements lvl + 1

/-- The generator with the reply, of which nothing but the ciphertexts has been left over. -/
structure Generated (pirParams : PIRParameters) (nbPolys : ℕ)
    (start : ReplyGenerator Poly Cipher) (after : ReplyGenerator Poly Cipher)
    (reached : LatticesBasedCryptosystem.ReplyState Poly Cipher) : Prop where
  rest : after = { start with
    heap := after.heap
    repliesArray := after.repliesArray
    currentMaxNbPolys := after.currentMaxNbPolys }
  within : start.heap.Within after.heap
  replies : ∀ entries, start.repliesArray = some entries → ∃ first filled,
    start.heap.next ≤ first ∧ after.repliesArray = some filled ∧
      filled.length = entries.length ∧
      ∀ poly < crypto.levelPolys nbPolys (pirParams.d - 1),
        filled[poly]? = some (some (first + poly)) ∧
        after.heap.blocks (first + poly) =
          some [.cipher (LatticesBasedCryptosystem.repliesArray pirParams reached poly)]
  live : after.heap.live =
    start.heap.live + crypto.levelPolys nbPolys (pirParams.d - 1)

variable {crypto} {state : ReplyGenerator Poly Cipher × ℕ} {query : ℕ → ℕ → Cipher}
  {reached : LatticesBasedCryptosystem.ReplyState Poly Cipher}

theorem AtLevel.input (at_level : AtLevel crypto pirParams nbPolys start lvl state reached)
    (prepared : Prepared crypto pirParams nbPolys subtract request query start)
    (fits : LevelsFit crypto pirParams nbPolys) (lvl_lt : lvl < pirParams.d) :
    LevelInput pirParams lvl state.2 nbPolys subtract request reached.inData (query lvl)
      state.1 where
  readable := by
    intro j j_lt poly poly_lt k k_lt
    rcases at_level.elements with ⟨first, elements, in_data_eq, level, -⟩
    have inside := LatticesBasedCryptosystem.index_lt lvl_lt j_lt k_lt
    rcases level.values _ inside with ⟨here, here_eq, values⟩
    rcases prepared.queries lvl lvl_lt k k_lt with ⟨place, quotients, stored, cipher, shoup⟩
    have queries_eq : state.1.queriesBuf = start.queriesBuf := by rw [at_level.rest]
    rw [at_level.polys] at poly_lt
    refine ⟨(first + 2 * (pirParams.n lvl * j + k) + 1, 0), place, ?_,
      level.holds.readPoly_eq here_eq (values poly poly_lt), by rw [queries_eq, stored],
      readCipher_within at_level.within cipher, quotients,
      read_bind_within at_level.within shoup⟩
    rw [in_data_eq]
    exact level.holds.readPointer_eq (by rw [level.length_eq]; exact inside)
  requested := prepared.requested.within at_level.within
  polys_le := by
    intro first
    rw [at_level.polys, first]
    exact le_rfl
  polys_lt := by
    rw [at_level.polys]
    exact fits.polys_lt lvl lvl_lt
  room := by
    intro top
    rcases prepared.room with ⟨entries, entries_eq, length_le⟩
    refine ⟨entries, ?_, ?_⟩
    · rw [at_level.rest]
      exact entries_eq
    · rw [at_level.polys, top]
      exact length_le

/-- After a level, the elements that it has read are freed, but for those of the database. -/
theorem AtLevel.free_spec (at_level : AtLevel crypto pirParams nbPolys start lvl state reached)
    (fits : LevelsFit crypto pirParams nbPolys) (lvl_lt : lvl < pirParams.d)
    {later : Heap (ReplyWord Poly Cipher)} (within : state.1.heap.Within later) :
    ∃ heap, (if 0 < lvl then freeElements state.2 (pirParams.nbElements lvl) later
        else some later) = some heap ∧
      start.heap.Within heap ∧ heap.next = later.next ∧
      (∀ other, state.1.heap.next ≤ other → heap.blocks other = later.blocks other) ∧
      heap.live + state.1.heap.live = later.live + start.heap.live := by
  have live := at_level.live
  split
  · rename_i own
    rcases at_level.elements with ⟨first, elements, in_data_eq, level, before⟩
    rcases (level.holds.within within).freeElements_spec (at_level.within.trans within)
      (level.later own) (level.nonempty own)
      (level.length_eq ▸ fits.elements_lt lvl lvl_lt own) with
      ⟨heap, frees, kept, next_eq, same, live_eq⟩
    have below := before own
    rw [level.length_eq] at frees live_eq same below in_data_eq
    refine ⟨heap, by rw [in_data_eq, frees], kept, next_eq,
      fun other other_ge => same other (by omega), ?_⟩
    rw [if_neg own.ne'] at live
    omega
  · rename_i first
    rw [if_pos (by omega)] at live
    refine ⟨later, rfl, at_level.within.trans within, rfl, fun _ _ => rfl, ?_⟩
    omega

/-- What a level leaves: the elements of the next one, or the reply. -/
structure AfterLevel (crypto : LatticesBasedCryptosystem Poly Cipher) (pirParams : PIRParameters)
    (nbPolys : ℕ) (start : ReplyGenerator Poly Cipher) (done : ℕ)
    (state : ReplyGenerator Poly Cipher × ℕ)
    (reached : LatticesBasedCryptosystem.ReplyState Poly Cipher) : Prop where
  at_level : done < pirParams.d → AtLevel crypto pirParams nbPolys start done state reached
  generated : done = pirParams.d → Generated crypto pirParams nbPolys start state.1 reached

theorem AtLevel.replyLevel_lockstep
    (at_level : AtLevel crypto pirParams nbPolys start lvl state reached)
    (prepared : Prepared crypto pirParams nbPolys subtract request query start)
    (fits : LevelsFit crypto pirParams nbPolys) (lvl_lt : lvl < pirParams.d) (fuel : ℕ) :
    Lockstep (AfterLevel crypto pirParams nbPolys start (lvl + 1))
      (replyLevel crypto pirParams fuel subtract state lvl)
      (crypto.replyLevel pirParams fuel query request lvl reached) := by
  have polys := at_level.polys
  have reachedPolys := at_level.reachedPolys
  rw [replyLevel, LatticesBasedCryptosystem.replyLevel, Option.map_eq_bind]
  apply (replyBlocks_lockstep crypto fuel lvl_lt (at_level.input prepared fits lvl_lt) rfl rfl
    (reachedPolys.trans polys.symm)).bind
  intro blocks replies results
  have next_eq := results.next_eq
  have start_le := at_level.next_le
  have rest : blocks.1 = { start with
      heap := blocks.1.heap
      repliesArray := blocks.1.repliesArray
      currentMaxNbPolys := blocks.1.currentMaxNbPolys } := by
    rw [results.continues.rest, at_level.rest]
  have array : state.1.repliesArray = start.repliesArray := by rw [at_level.rest]
  rcases at_level.free_spec fits lvl_lt results.continues.within with
    ⟨heap, frees, kept, heap_next, same, live_eq⟩
  have results_live := results.live
  rw [frees, Option.bind_some]
  by_cases more : lvl < pirParams.d - 1
  · rw [if_pos more, Function.comp_apply, if_pos more]
    rcases results.fromResulttoInData_spec crypto
      (show ({ blocks.1 with heap } : ReplyGenerator Poly Cipher).currentMaxNbPolys = _ from
        results.continues.currentMaxNbPolys) same with
      ⟨imported, imports, within, imported_next, holds, imported_live⟩
    dsimp only at within imported_next holds imported_live
    rw [imports, Option.bind_some]
    rcases results.freeAll_spec crypto (fun other words other_ge block => within other words
      ((same other other_ge).trans block)) with ⟨after, freesAll, after_next, others, after_live⟩
    dsimp only
    rw [freesAll, Option.map_some]
    refine .some ⟨fun _ => ?_, fun last => absurd last (by omega)⟩
    have deserialized := fits.reimports_le lvl (by omega)
    constructor
    · dsimp only
      rw [rest, results.kept (Or.inl more.ne), array]
    · intro other words block
      have below := Heap.lt_next block
      rw [others other (by omega)]
      exact within other words (kept other words block)
    · show start.heap.next ≤ after.next
      omega
    · show crypto.reimportNbPolys state.1.currentMaxNbPolys = _
      rw [polys]
      rfl
    · show crypto.reimportNbPolys reached.currentMaxNbPolys = _
      rw [reachedPolys]
      rfl
    · refine ⟨heap.next, _, ?_, ⟨holds.of_same ?_, ?_, ?_, ?_, ?_⟩, ?_⟩
      · rw [List.length_map, List.length_range]
      · intro other other_ge
        exact others other (Or.inr (heap_next ▸ other_ge))
      · rw [List.length_map, List.length_range]
      · intro e e_lt
        refine ⟨reimported crypto state.1.currentMaxNbPolys (replies e), ?_, ?_⟩
        · rw [List.getElem?_map, List.getElem?_range e_lt, Option.map_some]
        · intro poly poly_lt
          dsimp only
          rw [polys, reachedPolys, reimported, List.getElem?_map,
            List.getElem?_range (poly_lt.trans_le deserialized), Option.map_some]
      · intro _
        omega
      · intro _ here here_mem
        rcases List.mem_map.mp here_mem with ⟨e, -, rfl⟩
        have positive := fits.deserialized_pos lvl (by omega)
        rw [← List.length_pos_iff, reimported, polys, List.length_map, List.length_range]
        exact positive
      · intro _
        rw [List.length_map, List.length_range]
        show _ < after.next
        omega
    · rw [if_neg (Nat.succ_ne_zero lvl)]
      show after.live = _
      omega
  · rw [if_neg more, Function.comp_apply, if_neg more]
    have top : lvl = pirParams.d - 1 := by omega
    have single : pirParams.nbElements (lvl + 1) = 1 := by
      rw [show lvl + 1 = pirParams.d by omega, pirParams.nbElements_d]
    refine .some ⟨fun inside => absurd inside (by omega), fun _ => ?_⟩
    constructor
    · dsimp only
      rw [rest]
    · exact kept
    · intro entries entries_eq
      rcases results.stored top single entries (array.trans entries_eq) with
        ⟨filled, filled_eq, length_eq, here⟩
      refine ⟨state.1.heap.next, filled, start_le, filled_eq, length_eq, ?_⟩
      intro poly poly_lt
      rw [← top, ← polys] at poly_lt
      refine ⟨here poly poly_lt, ?_⟩
      have block := results.ciphers 0 (by omega) poly poly_lt
      rw [Nat.zero_mul, Nat.add_zero] at block
      dsimp only
      rw [same _ (Nat.le_add_right _ _), block, LatticesBasedCryptosystem.repliesArray, ← top]
      dsimp only
      rw [Function.update_self]
    · rw [single, Nat.one_mul] at results_live
      rw [← top, ← polys]
      show heap.live = _
      omega

/-- The elements of a database, and what a generator makes of them, are the same polynomials. -/
structure HoldsDatabase (pirParams : PIRParameters) (heap : Heap (ReplyWord Poly Cipher))
    (input_data polys : ℕ) (inData : ℕ → ℕ → Poly) : Prop where
  elements : ∃ first elements, input_data = first + 2 * elements.length ∧
    LevelElements pirParams heap heap 0 polys first elements inData

theorem HoldsDatabase.within {input_data polys : ℕ} {inData : ℕ → ℕ → Poly}
    (database : HoldsDatabase pirParams heap input_data polys inData)
    (within : heap.Within after) :
    HoldsDatabase pirParams after input_data polys inData := by
  rcases database.elements with ⟨first, elements, input_eq, level⟩
  exact ⟨first, elements, input_eq, { level with
    holds := level.holds.within within
    later := fun impossible => absurd impossible (Nat.lt_irrefl 0) }⟩

/-- All levels in memory, with the same outcome as without. -/
theorem Prepared.levels_lockstep {inputData : ℕ → ℕ → Poly} {input_data : ℕ}
    (prepared : Prepared crypto pirParams nbPolys subtract request query start)
    (fits : LevelsFit crypto pirParams nbPolys)
    (database : HoldsDatabase pirParams start.heap input_data nbPolys inputData)
    (polys_eq : start.currentMaxNbPolys = nbPolys) (fuel : ℕ) :
    Lockstep (fun state reached => Generated crypto pirParams nbPolys start state.1 reached)
      ((List.range pirParams.d).foldlM (replyLevel crypto pirParams fuel subtract)
        (start, input_data))
      (crypto.generateReply pirParams fuel query inputData nbPolys request) := by
  rcases database.elements with ⟨first, elements, input_eq, level⟩
  apply (Lockstep.foldlM_forLoop (AfterLevel crypto pirParams nbPolys start) ?_ ?_).mono
  · intro state reached _ _ done
    exact done.generated rfl
  · refine ⟨fun _ => ?_, fun none => absurd none pirParams.d_pos.ne⟩
    exact {
      rest := rfl
      within := Heap.Within.refl start.heap
      next_le := le_rfl
      polys := polys_eq
      reachedPolys := rfl
      elements := ⟨first, elements, input_eq, level, fun impossible =>
        absurd impossible (Nat.lt_irrefl 0)⟩
      live := rfl }
  · intro state reached lvl lvl_lt before
    exact (before.at_level lvl_lt).replyLevel_lockstep prepared fits lvl_lt fuel

end Recursion

end ReplyGenerator

end Xpir
