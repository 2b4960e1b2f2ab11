import Xpir.Libpir.Rounds
import Xpir.ReplyGenerator.ReplyRefinement

/-!
# The memory of rounds of queries

This file follows the blocks of memory through the rounds of queries on an imported database.
A query is pushed to two blocks for each of its elements, the reply is left in one block for
each ciphertext, the client frees the ciphertexts that it does not keep, and the query is freed.
No round reads, writes or frees a block that is not there. A round leaves what the client has
kept in memory and, if it has a request, the container of the request. The array of the
replies is there from the first round on.
-/

namespace Xpir

namespace Round

variable {Poly Cipher : Type}

/-- The replies that a client frees of those from one on. -/
def freed (frees : ℕ → Bool) (first count : ℕ) : ℕ := (List.range' first count).countP frees

/-- The request of a round, if there is one. -/
def ciphers (crypto : LatticesBasedCryptosystem Poly Cipher) (round : Round Cipher) :
    Option (ℕ → Cipher) :=
  round.request.map fun ciphers poly => ciphers.getD poly crypto.zero

/-- The blocks that a round of a number of replies leaves to the client. -/
def kept (amount : ℕ) (round : Round Cipher) : ℕ :=
  (round.request.elim 0 List.length) + (amount - freed round.frees 0 amount)

/-- The blocks that nobody frees after a round: the container of its request. -/
def leaked (round : Round Cipher) : ℕ := round.request.elim 0 fun _ => 1

end Round

/-- The blocks in memory, and the array of the replies if there is one. -/
def ReplyGenerator.live {Poly Cipher : Type} (generator : ReplyGenerator Poly Cipher) : ℕ :=
  generator.heap.live + if generator.repliesArray.isSome then 1 else 0

namespace ReplyRounds

open ReplyGenerator Round

variable {Poly Cipher : Type} {pirParams : PIRParameters}
  {base generator : ReplyGenerator Poly Cipher}

section Pushing

variable {query : ℕ → ℕ → Cipher} {places : List (ℕ × ℕ)}

/-- The elements of a query at some places, in the order in which they have been pushed. -/
structure Pushed (query : ℕ → ℕ → Cipher) (base : ReplyGenerator Poly Cipher)
    (places : List (ℕ × ℕ)) (generator : ReplyGenerator Poly Cipher) : Prop where
  rest : generator = { base with
    heap := generator.heap
    queriesBuf := generator.queriesBuf
    currentDimIndex := generator.currentDimIndex
    currentQueryIndex := generator.currentQueryIndex }
  within : base.heap.Within generator.heap
  next_eq : generator.heap.next = base.heap.next + 2 * places.length
  stored : ∀ i place, places[i]? = some place → generator.queriesBuf place.1 place.2 =
    some (base.heap.next + 2 * i, base.heap.next + 2 * i + 1)
  ciphers : ∀ i place, places[i]? = some place → generator.heap.blocks (base.heap.next + 2 * i) =
    some [.cipher (query place.1 place.2)]
  quotients : ∀ i place, places[i]? = some place →
    generator.heap.blocks (base.heap.next + 2 * i + 1) = some [.quotients (query place.1 place.2)]
  live : generator.heap.live = base.heap.live + 2 * places.length

theorem pushed_nil (query : ℕ → ℕ → Cipher) (base : ReplyGenerator Poly Cipher) :
    Pushed query base [] base where
  rest := rfl
  within := Heap.Within.refl base.heap
  next_eq := rfl
  stored i place here := absurd here (by simp)
  ciphers i place here := absurd here (by simp)
  quotients i place here := absurd here (by simp)
  live := rfl

/-- An element is stored in two new blocks. -/
theorem Pushed.setQuery (pushed : Pushed query base places generator) {place : ℕ × ℕ}
    (fresh : place ∉ places) :
    Pushed query base (places ++ [place]) (generator.setQuery
      ((generator.heap.alloc [.cipher (query place.1 place.2)]).alloc
        [.quotients (query place.1 place.2)])
      place (some (generator.heap.next, generator.heap.next + 1))) := by
  have next_eq := pushed.next_eq
  have live_eq := pushed.live
  have length_eq : (places ++ [place]).length = places.length + 1 := List.length_append
  constructor
  · rw [ReplyGenerator.setQuery]
    dsimp only
    rw [pushed.rest]
  · exact (pushed.within.alloc _).alloc _
  · rw [length_eq]
    show generator.heap.next + 1 + 1 = _
    omega
  · intro i other here
    rw [queriesBuf_setQuery]
    rcases getElem?_concat_cases here with before | ⟨rfl, rfl⟩
    · rw [if_neg]
      · exact pushed.stored i other before
      rintro rfl
      exact fresh (List.mem_of_getElem? before)
    · rw [if_pos rfl, ← next_eq]
  · intro i other here
    rcases getElem?_concat_cases here with before | ⟨rfl, rfl⟩
    · exact Heap.blocks_alloc (Heap.blocks_alloc (pushed.ciphers i other before))
    · rw [← next_eq]
      exact Heap.blocks_alloc (Heap.blocks_alloc_next _ _)
  · intro i other here
    rcases getElem?_concat_cases here with before | ⟨rfl, rfl⟩
    · exact Heap.blocks_alloc (Heap.blocks_alloc (pushed.quotients i other before))
    · rw [← next_eq]
      exact Heap.blocks_alloc_next _ _
  · rw [length_eq]
    show ((generator.heap.alloc _).alloc _).live = _
    rw [Heap.live_alloc, Heap.live_alloc, live_eq]
    omega

theorem Pushed.advance (pushed : Pushed query base places generator)
    (pirParams : PIRParameters) : Pushed query base places (generator.advance pirParams) := by
  rw [ReplyGenerator.advance]
  split
  · exact { pushed with rest := by rw [pushed.rest] }
  · exact { pushed with rest := by rw [pushed.rest] }

/-- An element is pushed to the place that both indices name. -/
theorem Pushed.step (pushed : Pushed query base places generator) {dim nbr : ℕ}
    (dim_eq : generator.currentDimIndex = dim) (nbr_eq : generator.currentQueryIndex = nbr)
    (dim_lt : dim < pirParams.d) (nbr_lt : nbr < pirParams.n dim) (isInt : nbr < 2 ^ 31)
    (fresh : (dim, nbr) ∉ places) :
    ∃ after, pushQuery pirParams
        { generator with heap := generator.heap.alloc [.cipher (query dim nbr)] }
        generator.heap.next = some after ∧
      Pushed query base (places ++ [(dim, nbr)]) after ∧
      (if pirParams.n dim ≤ nbr + 1 then
        after.currentDimIndex = dim + 1 ∧ after.currentQueryIndex = 0
      else after.currentDimIndex = dim ∧ after.currentQueryIndex = nbr + 1) := by
  subst dim_eq nbr_eq
  have cipherRead := readCipher_of_block (Heap.blocks_alloc_next generator.heap
    [ReplyWord.cipher (query generator.currentDimIndex generator.currentQueryIndex)])
  refine ⟨_, ?_, (pushed.setQuery fresh).advance pirParams, ?_⟩
  · rw [pushQuery]
    dsimp only
    rw [if_pos ⟨dim_lt, nbr_lt, isInt⟩, cipherRead]
    rfl
  · rw [ReplyGenerator.advance]
    split
    next last => exact if_pos last ▸ ⟨rfl, rfl⟩
    next more => exact if_neg more ▸ ⟨rfl, rfl⟩

theorem nodup_queryPlaces (pirParams : PIRParameters) : (queryPlaces pirParams).Nodup := by
  rw [queryPlaces, List.nodup_flatMap]
  constructor
  · intro dim _
    exact List.nodup_range.map fun nbr other same => congrArg Prod.snd same
  · apply List.nodup_range.imp
    intro dim other apart place here there
    rcases List.mem_map.mp here with ⟨nbr, -, rfl⟩
    rcases List.mem_map.mp there with ⟨otherNbr, -, same⟩
    exact apart (congrArg Prod.fst same).symm

/-- The places of the first dimensions. -/
def placesBefore (pirParams : PIRParameters) (dims : ℕ) : List (ℕ × ℕ) :=
  (List.range dims).flatMap fun dim =>
    (List.range (pirParams.n dim)).map fun nbr => (dim, nbr)

theorem notMem_placesBefore {dim nbr : ℕ} : (dim, nbr) ∉ placesBefore pirParams dim := by
  rw [placesBefore, List.mem_flatMap]
  rintro ⟨other, other_mem, place_mem⟩
  rcases List.mem_map.mp place_mem with ⟨otherNbr, -, same⟩
  have same_dim : other = dim := congrArg Prod.fst same
  exact absurd (List.mem_range.mp other_mem) (by omega)

theorem notMem_placesBefore_append {dim nbr : ℕ} :
    (dim, nbr) ∉ placesBefore pirParams dim ++ (List.range nbr).map fun nbr => (dim, nbr) := by
  rw [List.mem_append, not_or]
  refine ⟨notMem_placesBefore, ?_⟩
  intro listed
  rcases List.mem_map.mp listed with ⟨other, other_mem, same⟩
  have same_nbr : other = nbr := congrArg Prod.snd same
  exact absurd (List.mem_range.mp other_mem) (by omega)

theorem placesBefore_succ (pirParams : PIRParameters) (dims : ℕ) :
    placesBefore pirParams (dims + 1) = placesBefore pirParams dims ++
      (List.range (pirParams.n dims)).map fun nbr => (dims, nbr) := by
  rw [placesBefore, List.range_succ, List.flatMap_append, List.flatMap_singleton]
  rfl

/-- The client receives an element of a query, and pushes it. -/
def pushElement (pirParams : PIRParameters) (query : ℕ → ℕ → Cipher)
    (generator : ReplyGenerator Poly Cipher) (place : ℕ × ℕ) :
    Option (ReplyGenerator Poly Cipher) :=
  pushQuery pirParams
    { generator with heap := generator.heap.alloc [.cipher (query place.1 place.2)] }
    generator.heap.next

/-- The elements of a dimension are pushed, to the end of its row at last. -/
theorem Pushed.row {dim : ℕ} (pushed : Pushed query base (placesBefore pirParams dim) generator)
    (dim_lt : dim < pirParams.d) (n_le : pirParams.n dim ≤ 2 ^ 31)
    (dim_eq : generator.currentDimIndex = dim) (nbr_eq : generator.currentQueryIndex = 0)
    {count : ℕ} (count_le : count ≤ pirParams.n dim) :
    ∃ after, ((List.range count).map fun nbr => (dim, nbr)).foldlM (pushElement pirParams query)
        generator = some after ∧
      Pushed query base
        (placesBefore pirParams dim ++ (List.range count).map fun nbr => (dim, nbr)) after ∧
      (if pirParams.n dim ≤ count then
        after.currentDimIndex = dim + 1 ∧ after.currentQueryIndex = 0
      else after.currentDimIndex = dim ∧ after.currentQueryIndex = count) := by
  induction count with
  | zero =>
      have n_pos := pirParams.n_pos dim dim_lt
      refine ⟨generator, rfl, ?_, ?_⟩
      · rw [List.range_zero, List.map_nil, List.append_nil]
        exact pushed
      · rw [if_neg (by omega)]
        exact ⟨dim_eq, nbr_eq⟩
  | succ count ih =>
      rcases ih (Nat.le_of_succ_le count_le) with ⟨middle, runs, held, indices⟩
      rw [if_neg (by omega)] at indices
      rcases held.step indices.1 indices.2 dim_lt (by omega) (by omega)
        notMem_placesBefore_append with ⟨after, pushes, more, next⟩
      rw [List.range_succ, List.map_append, List.map_singleton, ← List.append_assoc,
        List.foldlM_append, runs]
      refine ⟨after, ?_, more, next⟩
      show (pushElement pirParams query middle (dim, count)).bind some = _
      rw [show pushElement pirParams query middle (dim, count) = some after from pushes]
      rfl

/-- All elements of a query are pushed, each to its place. -/
theorem pushQueries_spec (query : ℕ → ℕ → Cipher) (dim_eq : base.currentDimIndex = 0)
    (nbr_eq : base.currentQueryIndex = 0) (n_le : ∀ i < pirParams.d, pirParams.n i ≤ 2 ^ 31) :
    ∃ after, pushQueries pirParams base query = some after ∧
      Pushed query base (queryPlaces pirParams) after := by
  have rows : ∀ dims ≤ pirParams.d, ∃ after,
      (placesBefore pirParams dims).foldlM (pushElement pirParams query) base = some after ∧
      Pushed query base (placesBefore pirParams dims) after ∧ after.currentDimIndex = dims ∧
      after.currentQueryIndex = 0 := by
    intro dims
    induction dims with
    | zero => exact fun _ => ⟨base, rfl, pushed_nil query base, dim_eq, nbr_eq⟩
    | succ dims ih =>
        intro dims_lt
        rcases ih (Nat.le_of_succ_le dims_lt) with ⟨middle, runs, held, middle_dim, middle_nbr⟩
        rcases held.row dims_lt (n_le dims dims_lt) middle_dim middle_nbr le_rfl with
          ⟨after, pushes, more, indices⟩
        rw [if_pos le_rfl] at indices
        rw [placesBefore_succ, List.foldlM_append, runs]
        exact ⟨after, pushes, more, indices.1, indices.2⟩
  rcases rows pirParams.d le_rfl with ⟨after, runs, pushed, -⟩
  exact ⟨after, runs, pushed⟩

/-- The ciphertexts of a request are received in blocks of their own. -/
theorem receiveRequest_spec (ciphers : List Cipher) (heap : Heap (ReplyWord Poly Cipher)) :
    heap.Within (receiveRequest ciphers heap).1 ∧
      heap.next ≤ (receiveRequest ciphers heap).1.next ∧
      (receiveRequest ciphers heap).1.live = heap.live + ciphers.length ∧
      (receiveRequest ciphers heap).2.length = ciphers.length ∧
      ∀ (i : ℕ) cipher, ciphers[i]? = some cipher → ∃ address,
        (receiveRequest ciphers heap).2[i]? = some address ∧
        readCipher (receiveRequest ciphers heap).1 address = some cipher := by
  induction ciphers generalizing heap with
  | nil =>
      exact ⟨Heap.Within.refl heap, le_rfl, rfl, rfl, fun i cipher here => absurd here (by simp)⟩
  | cons cipher ciphers ih =>
      rcases ih (heap.alloc [.cipher cipher]) with ⟨within, next_le, live_eq, length_eq, reads⟩
      refine ⟨((Heap.Within.refl heap).alloc _).trans within, (Nat.le_succ _).trans next_le, ?_,
        congrArg (· + 1) length_eq, ?_⟩
      · rw [receiveRequest]
        dsimp only
        rw [live_eq, Heap.live_alloc, List.length_cons, Nat.add_assoc, Nat.add_comm 1]
      · intro i other here
        cases i with
        | zero =>
            rw [List.getElem?_cons_zero] at here
            obtain rfl := Option.some.inj here
            refine ⟨heap.next, rfl, readCipher_within within ?_⟩
            exact readCipher_of_block (Heap.blocks_alloc_next heap _)
        | succ i =>
            rw [List.getElem?_cons_succ] at here
            exact reads i other here

end Pushing

section Freeing

/-- All elements of a query are freed, in the order in which they have been pushed. -/
theorem freeQuery_foldlM_spec {places : List (ℕ × ℕ)} (distinct : places.Nodup) {first : ℕ}
    (stored : ∀ i place, places[i]? = some place → generator.queriesBuf place.1 place.2 =
      some (first + 2 * i, first + 2 * i + 1))
    (present : ∀ i < 2 * places.length, (generator.heap.blocks (first + i)).isSome) :
    ∃ after, places.foldlM freeQuery generator = some after ∧
      after.repliesArray = generator.repliesArray ∧
      after.heap.live + 2 * places.length = generator.heap.live := by
  induction places generalizing generator first with
  | nil => exact ⟨generator, rfl, rfl, rfl⟩
  | cons place places ih =>
      rcases List.nodup_cons.mp distinct with ⟨fresh, distinct⟩
      have here := stored 0 place rfl
      rcases Option.isSome_iff_exists.mp (present 0 (by rw [List.length_cons]; omega)) with
        ⟨words, block⟩
      rcases Option.isSome_iff_exists.mp (present 1 (by rw [List.length_cons]; omega)) with
        ⟨quotients, quotientBlock⟩
      rw [Nat.add_zero] at block
      rcases Heap.free_spec block with ⟨middle, frees, -, -, others⟩
      rw [← others _ (by omega)] at quotientBlock
      rcases Heap.free_spec quotientBlock with ⟨heap, freesQuotients, -, -, quotientOthers⟩
      have first_free : freeQuery generator place = some (generator.setQuery heap place none) := by
        rw [freeQuery, here]
        dsimp only
        rw [Nat.mul_zero, Nat.add_zero, frees, Option.bind_some, freesQuotients, Option.map_some]
      have rest_stored : ∀ i other, places[i]? = some other →
          (generator.setQuery heap place none).queriesBuf other.1 other.2 =
            some (first + 2 + 2 * i, first + 2 + 2 * i + 1) := by
        intro i other other_eq
        have apart : (other.1, other.2) ≠ place := by
          rintro rfl
          exact fresh (List.mem_of_getElem? other_eq)
        rw [queriesBuf_setQuery, if_neg apart, stored (i + 1) other other_eq]
        congr 2 <;> omega
      have rest_present : ∀ i < 2 * places.length,
          ((generator.setQuery heap place none).heap.blocks (first + 2 + i)).isSome := by
        intro i i_lt
        show (heap.blocks (first + 2 + i)).isSome
        rw [quotientOthers _ (by omega), others _ (by omega), Nat.add_assoc]
        exact present (2 + i) (by rw [List.length_cons]; omega)
      rcases ih distinct rest_stored rest_present with ⟨after, runs, same_array, live_eq⟩
      refine ⟨after, ?_, same_array, ?_⟩
      · rw [List.foldlM_cons, first_free]
        exact runs
      · have freed := Heap.live_free frees
        have freedQuotients := Heap.live_free freesQuotients
        have same : (generator.setQuery heap place none).heap = heap := rfl
        rw [same] at live_eq
        rw [List.length_cons]
        omega

end Freeing

section Popping

/-- The replies from the current one on are in the array, and their ciphertexts in memory. -/
structure Filled (amount first : ℕ) (replies : ℕ → Cipher)
    (generator : ReplyGenerator Poly Cipher) : Prop where
  amount_lt : amount < 2 ^ 64
  left : generator.currentReply + generator.nbRepliesToHandle = amount
  entries : ∃ entries, generator.repliesArray = some entries ∧ entries.length = amount ∧
    ∀ i, generator.currentReply ≤ i → i < amount → entries[i]? = some (some (first + i))
  ciphers : ∀ i, generator.currentReply ≤ i → i < amount →
    generator.heap.blocks (first + i) = some [.cipher (replies i)]

theorem takeReply_spec {reply : ℕ} {cipher : Cipher}
    (block : generator.heap.blocks reply = some [.cipher cipher]) (frees : Bool) :
    ∃ heap, takeReply generator frees reply = some (cipher, { generator with heap }) ∧
      heap.live + frees.toNat = generator.heap.live ∧
      ∀ other ≠ reply, heap.blocks other = generator.heap.blocks other := by
  rw [takeReply, readCipher_of_block block, Option.bind_some]
  cases frees with
  | false => exact ⟨generator.heap, rfl, rfl, fun _ _ => rfl⟩
  | true =>
      rcases Heap.free_spec block with ⟨heap, frees, -, -, others⟩
      refine ⟨heap, ?_, Heap.live_free frees, others⟩
      rw [if_pos rfl, frees, Option.map_some]

/-- The generator after a reply has been taken out of the array. -/
def pop (generator : ReplyGenerator Poly Cipher) (entries : List (Option ℕ)) :
    ReplyGenerator Poly Cipher :=
  { generator with
    repliesArray := some (entries.set generator.currentReply none)
    nbRepliesToHandle := generator.nbRepliesToHandle - 1
    currentReply := generator.currentReply + 1 }

/-- The current reply is popped, and the client frees it or not. -/
theorem Filled.step {amount first : ℕ} {replies : ℕ → Cipher}
    (filled : Filled amount first replies generator) (waiting : 0 < generator.nbRepliesToHandle)
    (frees : Bool) :
    ∃ entries heap, popReply generator = some (some (first + generator.currentReply),
        pop generator entries) ∧
      takeReply (pop generator entries) frees (first + generator.currentReply) =
        some (replies generator.currentReply, { pop generator entries with heap }) ∧
      Filled amount first replies { pop generator entries with heap } ∧
      (∀ other < first, heap.blocks other = generator.heap.blocks other) ∧
      heap.live + frees.toNat = generator.heap.live := by
  have amount_lt := filled.amount_lt
  have left := filled.left
  rcases filled.entries with ⟨entries, present, length_eq, rest⟩
  have here := rest generator.currentReply le_rfl (by omega)
  have one_less : wordSub generator.nbRepliesToHandle 1 = generator.nbRepliesToHandle - 1 :=
    wordSub_eq_sub waiting (by omega)
  have block : (pop generator entries).heap.blocks (first + generator.currentReply) =
      some [.cipher (replies generator.currentReply)] :=
    filled.ciphers generator.currentReply le_rfl (by omega)
  rcases takeReply_spec block frees with ⟨heap, takes, live_eq, others⟩
  refine ⟨entries, heap, ?_, takes, ?_, fun other other_lt => others other (by omega), live_eq⟩
  · rw [popReply, if_neg (by omega), present, Option.bind_some, here, Option.bind_some,
      Option.map_some, one_less]
    rfl
  · constructor
    · exact amount_lt
    · show generator.currentReply + 1 + (generator.nbRepliesToHandle - 1) = amount
      omega
    · refine ⟨_, rfl, by rw [List.length_set, length_eq], ?_⟩
      intro i i_ge i_lt
      have later : generator.currentReply + 1 ≤ i := i_ge
      rw [List.getElem?_set_ne (by omega)]
      exact rest i (by omega) i_lt
    · intro i i_ge i_lt
      have later : generator.currentReply + 1 ≤ i := i_ge
      exact (others _ (by omega)).trans (filled.ciphers i (by omega) i_lt)

theorem freed_succ (frees : ℕ → Bool) (first count : ℕ) :
    freed frees first (count + 1) = (frees first).toNat + freed frees (first + 1) count := by
  rw [freed, freed, List.range'_succ, List.countP_cons, Nat.add_comm]
  cases frees first <;> rfl

/-- The client pops all replies, in order, and the blocks from before are kept. -/
theorem Filled.takeReplies_spec {amount first : ℕ} {replies : ℕ → Cipher} (frees : ℕ → Bool)
    {calls : ℕ} (filled : Filled amount first replies generator)
    (enough : generator.nbRepliesToHandle < calls) :
    ∃ after, takeReplies frees calls generator =
        some (after, (List.range' generator.currentReply generator.nbRepliesToHandle).map replies) ∧
      after.queriesBuf = generator.queriesBuf ∧ after.repliesArray.isSome ∧
      (∀ other < first, after.heap.blocks other = generator.heap.blocks other) ∧
      after.heap.live + freed frees generator.currentReply generator.nbRepliesToHandle =
        generator.heap.live := by
  induction calls generalizing generator with
  | zero => exact absurd enough (Nat.not_lt_zero _)
  | succ calls ih =>
      rw [takeReplies]
      by_cases finished : generator.nbRepliesToHandle = 0
      · rw [popReply, if_pos (Nat.le_zero.mpr finished), Option.bind_some, finished]
        rcases filled.entries with ⟨entries, present, -⟩
        exact ⟨_, rfl, rfl, Option.isSome_iff_exists.mpr ⟨entries, present⟩, fun _ _ => rfl, rfl⟩
      · have waiting := Nat.pos_of_ne_zero finished
        rcases filled.step waiting (frees generator.currentReply) with
          ⟨entries, heap, pops, takes, more, others, live_eq⟩
        rcases ih more (show generator.nbRepliesToHandle - 1 < calls by omega) with
          ⟨after, runs, same_queries, still_there, same_blocks, rest_live⟩
        rw [show generator.nbRepliesToHandle = generator.nbRepliesToHandle - 1 + 1 by omega,
          List.range'_succ, List.map_cons, freed_succ]
        refine ⟨after, ?_, same_queries, still_there, ?_, ?_⟩
        · rw [pops, Option.bind_some]
          dsimp only
          rw [takes, Option.bind_some, runs, Option.map_some]
          rfl
        · intro other other_lt
          rw [same_blocks other other_lt]
          exact others other other_lt
        · have after_live : after.heap.live + freed frees (generator.currentReply + 1)
            (generator.nbRepliesToHandle - 1) = heap.live := rest_live
          omega

end Popping

section Database

theorem laid_importElements (elements : List (List Poly)) :
    Laid (Heap.empty : Heap (ReplyWord Poly Cipher)) elements (importElements elements) := by
  induction elements using List.reverseRecOn with
  | nil => exact laid_nil Heap.empty
  | append_singleton elements polys ih =>
      rw [importElements, List.foldl_append]
      exact ih.step polys

/-- The elements of an array of polynomials. -/
def databaseElements (pirParams : PIRParameters) (polys : ℕ) (inputData : ℕ → ℕ → Poly) :
    List (List Poly) :=
  (List.range (pirParams.nbElements 0)).map fun element =>
    (List.range polys).map (inputData element)

theorem holdsDatabase_importData (polys bytes : ℕ) (inputData : ℕ → ℕ → Poly) :
    HoldsDatabase pirParams
      (importData (databaseElements pirParams polys inputData) polys bytes :
        DatabaseMemory Poly Cipher).heap
      (importData (databaseElements pirParams polys inputData) polys bytes :
        DatabaseMemory Poly Cipher).database.importedDatabasePtr polys inputData := by
  have laid : Laid (Heap.empty : Heap (ReplyWord Poly Cipher)) _ _ :=
    laid_importElements (databaseElements pirParams polys inputData)
  refine ⟨0, databaseElements pirParams polys inputData, laid.next_eq, laid.holdsElements, ?_, ?_,
    fun impossible => absurd impossible (Nat.lt_irrefl 0),
    fun impossible => absurd impossible (Nat.lt_irrefl 0)⟩
  · rw [databaseElements, List.length_map, List.length_range]
  · intro e e_lt
    refine ⟨(List.range polys).map (inputData e), ?_, ?_⟩
    · rw [databaseElements, List.getElem?_map, List.getElem?_range e_lt, Option.map_some]
    · intro poly poly_lt
      rw [List.getElem?_map, List.getElem?_range poly_lt, Option.map_some]

end Database

section Rounds

variable {crypto : LatticesBasedCryptosystem Poly Cipher} {nbPolys : ℕ}
  {inputData : ℕ → ℕ → Poly} {memory : DatabaseMemory Poly Cipher}

/-- What the generator reads of a database, and that all sizes fit its variables. -/
structure Serves (crypto : LatticesBasedCryptosystem Poly Cipher) (pirParams : PIRParameters)
    (nbPolys : ℕ) (inputData : ℕ → ℕ → Poly) (memory : DatabaseMemory Poly Cipher) : Prop where
  database : HoldsDatabase pirParams memory.heap memory.database.importedDatabasePtr nbPolys
    inputData
  polysPerElement : memory.database.polysPerElement = nbPolys
  announced : crypto.publicParams.computeReplySizeInChunks pirParams
    memory.database.beforeImportElementBytesize =
      some (crypto.levelPolys nbPolys (pirParams.d - 1))
  fits : LevelsFit crypto pirParams nbPolys
  n_le : ∀ i < pirParams.d, pirParams.n i ≤ 2 ^ 31

theorem freed_le (frees : ℕ → Bool) (first count : ℕ) : freed frees first count ≤ count := by
  rw [freed]
  exact List.countP_le_length.trans_eq List.length_range'

/-- The ciphertexts of a request are at the addresses that are given. -/
def Received (heap : Heap (ReplyWord Poly Cipher)) (nbPolys : ℕ) (addresses : Option (List ℕ))
    (request : Option (ℕ → Cipher)) : Prop :=
  Option.Rel (fun addresses ciphers => addresses.length < 2 ^ 31 ∧ ∀ poly < nbPolys, ∃ address,
    addresses[poly]? = some address ∧ readCipher heap address = some (ciphers poly))
    addresses request

/-- The container of a request is a new block, from which its ciphertexts can be read. -/
theorem Received.contain_spec {heap : Heap (ReplyWord Poly Cipher)} {addresses : Option (List ℕ)}
    {request : Option (ℕ → Cipher)} (received : Received heap nbPolys addresses request) :
    ∃ subtract, contain heap addresses = some subtract ∧
      Requested subtract.1 nbPolys subtract.2 request ∧ heap.Within subtract.1 ∧
      heap.next ≤ subtract.1.next ∧
      subtract.1.live = heap.live + addresses.elim 0 fun _ => 1 := by
  cases received with
  | none => exact ⟨_, rfl, .none, Heap.Within.refl heap, le_rfl, rfl⟩
  | @some addresses ciphers there =>
      have within := (Heap.Within.refl heap).alloc (addresses.map (.pointer · 0))
      refine ⟨(heap.alloc (addresses.map (.pointer · 0)), some heap.next), ?_, .some ?_, within,
        Nat.le_succ _, Heap.live_alloc _ _⟩
      · rw [contain, charToLWECipher, if_pos there.1, Option.map_some]
      · intro poly poly_lt
        rcases there.2 poly poly_lt with ⟨address, listed, reads⟩
        refine ⟨(address, 0), ?_, readCipher_within within reads⟩
        rw [readPointer, Heap.read_of_block (Heap.blocks_alloc_next heap _), List.getElem?_map,
          listed]
        rfl

/-- The replies of a call are those of the generation without memory. -/
theorem Serves.generateReply_spec (serves : Serves crypto pirParams nbPolys inputData memory)
    {fuel : ℕ} (enough : ∀ i < pirParams.d, pirParams.n i < fuel)
    (within : memory.heap.Within generator.heap) (drained : generator.Drained)
    {query : ℕ → ℕ → Cipher} {addresses : Option (List ℕ)} {request : Option (ℕ → Cipher)}
    (queries : ∀ dim < pirParams.d, ∀ nbr < pirParams.n dim, ∃ place quotients,
      generator.queriesBuf dim nbr = some place ∧
        readCipher generator.heap place.1 = some (query dim nbr) ∧
        readQuotients generator.heap place.2 = some quotients)
    (received : Received generator.heap nbPolys addresses request) :
    ∃ after reached first,
      generateReply crypto pirParams fuel memory.database generator addresses = some after ∧
      crypto.generateReply pirParams fuel query inputData nbPolys request = some reached ∧
      Filled (crypto.levelPolys nbPolys (pirParams.d - 1)) first
        (LatticesBasedCryptosystem.repliesArray pirParams reached) after ∧
      after.currentReply = 0 ∧
      after.nbRepliesToHandle = crypto.levelPolys nbPolys (pirParams.d - 1) ∧
      after.queriesBuf = generator.queriesBuf ∧ generator.heap.Within after.heap ∧
      generator.heap.next ≤ first ∧
      after.heap.live = generator.heap.live + addresses.elim 0 (fun _ => 1) +
        crypto.levelPolys nbPolys (pirParams.d - 1) := by
  have idle : Drained { generator with nbRepliesToHandle := 0, currentReply := 0 } := drained
  let amount := crypto.levelPolys nbPolys (pirParams.d - 1)
  rcases received.contain_spec with ⟨subtract, contains, requested, contained, next_le, live_eq⟩
  let start : ReplyGenerator Poly Cipher := { generator with
    heap := subtract.1
    repliesArray := some (List.replicate amount none)
    nbRepliesToHandle := amount
    currentReply := 0
    currentMaxNbPolys := nbPolys
    repliesAmount := amount }
  have there : ∀ dim < pirParams.d, ∀ nbr < pirParams.n dim, ∃ place quotients,
      start.queriesBuf dim nbr = some place ∧
        readCipher start.heap place.1 = some (query dim nbr) ∧
        readQuotients start.heap place.2 = some quotients := by
    intro dim dim_lt nbr nbr_lt
    rcases queries dim dim_lt nbr nbr_lt with ⟨place, quotients, stored, cipher, shoup⟩
    exact ⟨place, quotients, stored, readCipher_within contained cipher,
      read_bind_within contained shoup⟩
  have prepared : Prepared crypto pirParams nbPolys subtract.2 request query start :=
    ⟨there, requested, _, rfl, by rw [List.length_replicate]⟩
  have lockstep := prepared.levels_lockstep serves.fits
    (serves.database.within (within.trans contained)) rfl fuel
  have rounds : LatticesBasedCryptosystem.RoundsFit pirParams :=
    fun i i_lt => (serves.n_le i i_lt).trans (by decide)
  rcases LatticesBasedCryptosystem.exists_generateReply crypto query inputData nbPolys request
    rounds enough with ⟨reached, returns⟩
  have runs : generateReply crypto pirParams fuel memory.database generator addresses =
      ((List.range pirParams.d).foldlM (replyLevel crypto pirParams fuel subtract.2)
        (start, memory.database.importedDatabasePtr)).map Prod.fst := by
    rw [generateReply, idle.freeResult_eq, Option.bind_some, serves.announced, Option.bind_some,
      serves.polysPerElement]
    dsimp only
    rw [contains, Option.bind_some]
    rfl
  rw [returns] at lockstep
  generalize (List.range pirParams.d).foldlM (replyLevel crypto pirParams fuel subtract.2)
    (start, memory.database.importedDatabasePtr) = final at lockstep runs
  cases lockstep with
  | @some final reached generated =>
      rcases generated.replies _ rfl with ⟨first, filled, first_le, filled_eq, length_eq, replies⟩
      have rest := generated.rest
      have current : final.1.currentReply = 0 := by rw [rest]
      have left : final.1.nbRepliesToHandle = amount := by rw [rest]
      refine ⟨final.1, reached, first, runs, returns, ⟨?_, ?_, ?_, ?_⟩, current, left,
        by rw [rest], contained.trans generated.within, next_le.trans first_le, ?_⟩
      · exact computeReplySizeInChunks_lt serves.announced
      · rw [current, left, Nat.zero_add]
      · refine ⟨filled, filled_eq, by rw [length_eq, List.length_replicate], ?_⟩
        intro i _ i_lt
        exact (replies i i_lt).1
      · intro i _ i_lt
        exact (replies i i_lt).2
      · rw [← live_eq]
        exact generated.live

/-- The call of a round, with the request in blocks that stay with the caller. -/
theorem Serves.answer_spec (serves : Serves crypto pirParams nbPolys inputData memory)
    {fuel : ℕ} (enough : ∀ i < pirParams.d, pirParams.n i < fuel)
    (within : memory.heap.Within generator.heap) (drained : generator.Drained)
    {round : Round Cipher}
    (queries : ∀ dim < pirParams.d, ∀ nbr < pirParams.n dim, ∃ place quotients,
      generator.queriesBuf dim nbr = some place ∧
        readCipher generator.heap place.1 = some (round.query dim nbr) ∧
        readQuotients generator.heap place.2 = some quotients)
    (complete : ∀ ciphers, round.request = some ciphers →
      nbPolys ≤ ciphers.length ∧ ciphers.length < 2 ^ 31) :
    ∃ after reached first,
      answer crypto pirParams fuel memory.database generator round.request = some after ∧
      crypto.generateReply pirParams fuel round.query inputData nbPolys (round.ciphers crypto) =
        some reached ∧
      Filled (crypto.levelPolys nbPolys (pirParams.d - 1)) first
        (LatticesBasedCryptosystem.repliesArray pirParams reached) after ∧
      after.currentReply = 0 ∧
      after.nbRepliesToHandle = crypto.levelPolys nbPolys (pirParams.d - 1) ∧
      after.queriesBuf = generator.queriesBuf ∧ generator.heap.Within after.heap ∧
      generator.heap.next ≤ first ∧
      after.heap.live = generator.heap.live +
        (round.request.elim 0 List.length + round.leaked) +
          crypto.levelPolys nbPolys (pirParams.d - 1) := by
  cases asked : round.request with
  | none =>
      rw [Round.ciphers, Round.leaked, asked]
      exact serves.generateReply_spec enough within drained queries .none
  | some ciphers =>
      rcases receiveRequest_spec ciphers generator.heap with
        ⟨receives, next_le, live_eq, length_eq, reads⟩
      let received : ReplyGenerator Poly Cipher :=
        { generator with heap := (receiveRequest ciphers generator.heap).1 }
      have requested : Received received.heap nbPolys
          (some (receiveRequest ciphers generator.heap).2) (round.ciphers crypto) := by
        rw [Round.ciphers, asked]
        refine .some ⟨length_eq ▸ (complete ciphers asked).2, ?_⟩
        intro poly poly_lt
        have inside : poly < ciphers.length := poly_lt.trans_le (complete ciphers asked).1
        dsimp only
        rw [List.getD_eq_getElem?_getD, List.getElem?_eq_getElem inside, Option.getD_some]
        exact reads poly ciphers[poly] (List.getElem?_eq_getElem inside)
      have received_drained : received.Drained := drained
      have received_queries : ∀ dim < pirParams.d, ∀ nbr < pirParams.n dim, ∃ place quotients,
          received.queriesBuf dim nbr = some place ∧
            readCipher received.heap place.1 = some (round.query dim nbr) ∧
            readQuotients received.heap place.2 = some quotients := by
        intro dim dim_lt nbr nbr_lt
        rcases queries dim dim_lt nbr nbr_lt with ⟨place, quotients, stored, cipher, shoup⟩
        exact ⟨place, quotients, stored, readCipher_within receives cipher,
          read_bind_within receives shoup⟩
      rcases serves.generateReply_spec enough (within.trans receives) received_drained
        received_queries requested with ⟨after, reached, first, runs, returns, filled, current,
          left, same, kept, first_le, after_live⟩
      refine ⟨after, reached, first, runs, returns, filled, current, left, same,
        receives.trans kept, next_le.trans first_le, ?_⟩
      rw [after_live, Option.elim_some, Round.leaked, asked, Option.elim_some, Option.elim_some,
        ← Nat.add_assoc]
      exact congrArg (· + 1 + _) live_eq

/-- A round on an idle generator ends, and leaves what the client keeps. -/
theorem Serves.runRound_spec (serves : Serves crypto pirParams nbPolys inputData memory)
    {fuel : ℕ} (enough : ∀ i < pirParams.d, pirParams.n i < fuel)
    (idle : Idle memory pirParams generator) {round : Round Cipher}
    (complete : ∀ ciphers, round.request = some ciphers →
      nbPolys ≤ ciphers.length ∧ ciphers.length < 2 ^ 31) :
    ∃ final reached,
      runRound crypto pirParams fuel memory.database generator round =
        some (final, (List.range (crypto.levelPolys nbPolys (pirParams.d - 1))).map
          (LatticesBasedCryptosystem.repliesArray pirParams reached)) ∧
      crypto.generateReply pirParams fuel round.query inputData nbPolys (round.ciphers crypto) =
        some reached ∧ final.repliesArray.isSome ∧
      final.heap.live = generator.heap.live +
        (round.kept (crypto.levelPolys nbPolys (pirParams.d - 1)) + round.leaked) := by
  have within : memory.heap.Within generator.heap := by
    intro address words block
    rw [idle.unchanged address (Heap.lt_next block), block]
  rcases pushQueries_spec round.query idle.currentDimIndex idle.currentQueryIndex serves.n_le with
    ⟨received, pushes, pushed⟩
  have drained : received.Drained := by
    rw [pushed.rest]
    exact idle.drained
  have queries : ∀ dim < pirParams.d, ∀ nbr < pirParams.n dim, ∃ place quotients,
      received.queriesBuf dim nbr = some place ∧
        readCipher received.heap place.1 = some (round.query dim nbr) ∧
        readQuotients received.heap place.2 = some quotients := by
    intro dim dim_lt nbr nbr_lt
    rcases List.mem_iff_getElem?.mp (mem_queryPlaces.mpr ⟨dim_lt, nbr_lt⟩ :
      (dim, nbr) ∈ queryPlaces pirParams) with ⟨i, here⟩
    exact ⟨_, _, pushed.stored i _ here, readCipher_of_block (pushed.ciphers i _ here),
      readQuotients_of_block (pushed.quotients i _ here)⟩
  rcases serves.answer_spec enough (within.trans pushed.within) drained queries complete with
    ⟨after, reached, first, answers, returns, filled, current, left, same, kept, first_le,
      after_live⟩
  rcases filled.takeReplies_spec round.frees (Nat.lt_succ_self _) with
    ⟨taken, takes, taken_queries, still_there, taken_blocks, taken_live⟩
  rw [current, left] at takes taken_live
  have present : ∀ i < 2 * (queryPlaces pirParams).length,
      (taken.heap.blocks (generator.heap.next + i)).isSome := by
    intro i i_lt
    have below := pushed.next_eq
    have here : (queryPlaces pirParams)[i / 2]? =
        some (queryPlaces pirParams)[i / 2] := List.getElem?_eq_getElem (by omega)
    rw [taken_blocks _ (by omega)]
    rcases Nat.mod_two_eq_zero_or_one i with even | odd
    · rw [show generator.heap.next + i = generator.heap.next + 2 * (i / 2) by omega,
        kept _ _ (pushed.ciphers _ _ here)]
      rfl
    · rw [show generator.heap.next + i = generator.heap.next + 2 * (i / 2) + 1 by omega,
        kept _ _ (pushed.quotients _ _ here)]
      rfl
  rcases freeQuery_foldlM_spec (nodup_queryPlaces pirParams) (by
    intro i place here
    rw [taken_queries, same]
    exact pushed.stored i place here) present with ⟨final, frees, same_array, final_live⟩
  refine ⟨{ final with
    currentQueryIndex := 0
    currentDimIndex := 0 }, reached, ?_, returns, same_array ▸ still_there, ?_⟩
  · rw [runRound, pushes, Option.bind_some, answers, Option.bind_some, left, takes,
      Option.bind_some, freeQueries, frees, Option.map_some, Option.map_some, List.range_eq_range']
  · have pushed_live := pushed.live
    have freed_le := freed_le round.frees 0 (crypto.levelPolys nbPolys (pirParams.d - 1))
    show final.heap.live = _
    rw [Round.kept]
    omega

/-- Rounds that have been run, with the replies and the blocks that they leave. -/
structure Answered (crypto : LatticesBasedCryptosystem Poly Cipher) (pirParams : PIRParameters)
    (fuel nbPolys : ℕ) (inputData : ℕ → ℕ → Poly) (round : Round Cipher)
    (replies : List Cipher) : Prop where
  generated : ∃ reached,
    crypto.generateReply pirParams fuel round.query inputData nbPolys (round.ciphers crypto) =
      some reached ∧
    replies = (List.range (crypto.levelPolys nbPolys (pirParams.d - 1))).map
      (LatticesBasedCryptosystem.repliesArray pirParams reached)

theorem Serves.runRounds_spec (serves : Serves crypto pirParams nbPolys inputData memory)
    {fuel : ℕ} (enough : ∀ i < pirParams.d, pirParams.n i < fuel)
    (idle : Idle memory pirParams generator) {rounds : List (Round Cipher)}
    (complete : ∀ round ∈ rounds, ∀ ciphers, round.request = some ciphers →
      nbPolys ≤ ciphers.length ∧ ciphers.length < 2 ^ 31) :
    ∃ final, runRounds crypto pirParams fuel memory.database rounds generator = some final ∧
      List.Forall₂ (Answered crypto pirParams fuel nbPolys inputData) rounds final.2 ∧
      (final.1.repliesArray.isSome ↔ rounds ≠ [] ∨ generator.repliesArray.isSome) ∧
      final.1.heap.live = generator.heap.live +
        ((rounds.map (Round.kept (crypto.levelPolys nbPolys (pirParams.d - 1)))).sum +
          (rounds.map Round.leaked).sum) := by
  induction rounds generalizing generator with
  | nil => exact ⟨(generator, []), rfl, .nil, by simp, rfl⟩
  | cons round rounds ih =>
      rcases serves.runRound_spec enough idle (complete round List.mem_cons_self) with
        ⟨after, reached, runs, returns, allocated, after_live⟩
      have lockstep := runRound_of_idle crypto fuel idle round
      rw [runs] at lockstep
      have after_idle : Idle memory pirParams after := by
        generalize runRound crypto pirParams fuel memory.database (construct memory.heap) round =
          fresh at lockstep
        cases lockstep with
        | some related => exact related.2
      rcases ih after_idle (fun other other_mem =>
        complete other (List.mem_cons_of_mem round other_mem)) with
        ⟨final, rest, answered, still_there, final_live⟩
      refine ⟨(final.1, _ :: final.2), ?_, .cons ⟨reached, returns, rfl⟩ answered, ?_, ?_⟩
      · rw [runRounds, runs, Option.bind_some, rest, Option.map_some]
      · exact iff_of_true (still_there.mpr (Or.inr allocated)) (Or.inl (List.cons_ne_nil _ _))
      · rw [List.map_cons, List.map_cons, List.sum_cons, List.sum_cons]
        dsimp only
        omega

/-- The blocks after some rounds on a generator that is used for the first time. -/
theorem Serves.live_runRounds (serves : Serves crypto pirParams nbPolys inputData memory)
    {fuel : ℕ} (enough : ∀ i < pirParams.d, pirParams.n i < fuel) {rounds : List (Round Cipher)}
    (complete : ∀ round ∈ rounds, ∀ ciphers, round.request = some ciphers →
      nbPolys ≤ ciphers.length ∧ ciphers.length < 2 ^ 31) :
    ∃ final,
      runRounds crypto pirParams fuel memory.database rounds (construct memory.heap) =
        some final ∧
      List.Forall₂ (Answered crypto pirParams fuel nbPolys inputData) rounds final.2 ∧
      final.1.live = memory.heap.live +
        (rounds.map (Round.kept (crypto.levelPolys nbPolys (pirParams.d - 1)))).sum +
          (rounds.map Round.leaked).sum + if rounds = [] then 0 else 1 := by
  rcases serves.runRounds_spec enough idle_construct complete with
    ⟨final, runs, answered, allocated, live⟩
  refine ⟨final, runs, answered, ?_⟩
  have unused : ¬ (construct memory.heap : ReplyGenerator Poly Cipher).repliesArray.isSome := by
    simp [construct]
  rw [or_iff_left unused] at allocated
  rw [ReplyGenerator.live, live, ← Nat.add_assoc]
  simp only [allocated, ite_not]
  rfl

end Rounds

section Sizes

variable {crypto : LatticesBasedCryptosystem Poly Cipher}

open PublicParameters

/-- With elements of few plaintexts, all sizes fit the variables of the generator. -/
theorem levelsFit_of_bounds {params : PublicParameters} (same : crypto.publicParams = params)
    (bounds : params.SizeBounds) {bytes : ℕ} (bytes_pos : 0 < bytes)
    (few : params.plaintexts bytes (pirParams.d - 1) < 2 ^ 32)
    (elements_lt : pirParams.nbElements 1 < 2 ^ 31) :
    LevelsFit crypto pirParams (params.plaintexts bytes 0) := by
  have level_few : ∀ lvl < pirParams.d, params.plaintexts bytes lvl < 2 ^ 32 :=
    fun lvl lvl_lt => (bounds.plaintexts_mono bytes (by omega)).trans_lt few
  have polys : ∀ lvl < pirParams.d,
      crypto.levelPolys (params.plaintexts bytes 0) lvl = params.plaintexts bytes lvl :=
    fun lvl lvl_lt => LatticesBasedCryptosystem.levelPolys_eq_plaintexts same bounds (level_few lvl lvl_lt)
  have ciphertext_eq : crypto.ciphertextBitsize = 8 * params.ciphertextBytesize := by
    rw [← bounds.ciphertext_eq, ← same]
    rfl
  have deserialized : ∀ lvl, lvl + 1 < pirParams.d → crypto.publicParams.deserializedPolys
      (crypto.levelPolys (params.plaintexts bytes 0) lvl) crypto.ciphertextBitsize =
        params.plaintexts bytes (lvl + 1) := by
    intro lvl next_lt
    have lvl_few := level_few lvl (Nat.lt_of_succ_lt next_lt)
    have product_lt : params.plaintexts bytes lvl * params.ciphertextBytesize < 2 ^ 53 := by
      calc params.plaintexts bytes lvl * params.ciphertextBytesize
          ≤ params.plaintexts bytes lvl * 2 ^ 21 := Nat.mul_le_mul_left _ bounds.ciphertext_le
        _ < 2 ^ 32 * 2 ^ 21 := Nat.mul_lt_mul_of_pos_right lvl_few (by decide)
        _ = 2 ^ 53 := by decide
    have ciphertext_le := bounds.ciphertext_le
    have absorption_lt := bounds.absorption_lt
    have product : 8 * params.ciphertextBytesize * params.plaintexts bytes lvl =
        8 * (params.plaintexts bytes lvl * params.ciphertextBytesize) := by ring
    rw [polys lvl (Nat.lt_of_succ_lt next_lt), deserializedPolys, same, ciphertext_eq,
      bounds.absorption_eq, toDouble_natCast (by omega : 8 * params.ciphertextBytesize < 2 ^ 53),
      toDouble_natCast (by omega : params.plaintexts bytes lvl < 2 ^ 53), ← Nat.cast_mul, product]
    exact natCeil_toDouble_bits product_lt (by omega) bounds.absorption_pos
  constructor
  · intro lvl lvl_lt lvl_pos
    exact (pirParams.nbElements_le lvl_pos lvl_lt).trans_lt elements_lt
  · intro lvl lvl_lt
    rw [polys lvl lvl_lt]
    exact level_few lvl lvl_lt
  · intro lvl next_lt
    rw [deserialized lvl next_lt]
    exact bounds.plaintexts_pos bytes_pos (lvl + 1)
  · intro lvl next_lt
    rw [deserialized lvl next_lt, polys (lvl + 1) next_lt]

/-- A database of elements of some bytes, in a memory of its own. -/
def importedMemory (crypto : LatticesBasedCryptosystem Poly Cipher) (pirParams : PIRParameters)
    (maxFileBytesize : ℕ) (inputData : ℕ → ℕ → Poly) : DatabaseMemory Poly Cipher :=
  let polys := crypto.publicParams.plaintexts (maxFileBytesize * pirParams.alpha) 0
  importData (databaseElements pirParams polys inputData) polys maxFileBytesize

theorem serves_importedMemory (bounds : crypto.publicParams.SizeBounds) {maxFileBytesize : ℕ}
    (bytes_pos : 0 < maxFileBytesize)
    (few : crypto.publicParams.plaintexts (maxFileBytesize * pirParams.alpha) (pirParams.d - 1) <
      2 ^ 32) (n_le : ∀ i < pirParams.d, pirParams.n i ≤ 2 ^ 31)
    (elements_lt : pirParams.nbElements 1 < 2 ^ 31) (inputData : ℕ → ℕ → Poly) :
    Serves crypto pirParams
      (crypto.publicParams.plaintexts (maxFileBytesize * pirParams.alpha) 0) inputData
      (importedMemory crypto pirParams maxFileBytesize inputData) where
  database := holdsDatabase_importData _ _ inputData
  polysPerElement := rfl
  announced := by
    rw [LatticesBasedCryptosystem.levelPolys_eq_plaintexts rfl bounds few]
    exact bounds.computeReplySizeInChunks_eq few
  fits := levelsFit_of_bounds rfl bounds (Nat.mul_pos bytes_pos pirParams.alpha_pos) few
    elements_lt
  n_le := n_le

/--
Any rounds on an imported database end. Each of them pops the replies of the generation
without memory. What they leave in memory are the requests and the replies that the client
has kept, the containers of the requests and the array of the last replies.
-/
theorem runRounds_answers (bounds : crypto.publicParams.SizeBounds) {maxFileBytesize : ℕ}
    (bytes_pos : 0 < maxFileBytesize)
    (few : crypto.publicParams.plaintexts (maxFileBytesize * pirParams.alpha) (pirParams.d - 1) <
      2 ^ 32) (n_le : ∀ i < pirParams.d, pirParams.n i ≤ 2 ^ 31)
    (elements_lt : pirParams.nbElements 1 < 2 ^ 31) (inputData : ℕ → ℕ → Poly)
    {rounds : List (Round Cipher)}
    (complete : ∀ round ∈ rounds, ∀ ciphers, round.request = some ciphers →
      crypto.publicParams.plaintexts (maxFileBytesize * pirParams.alpha) 0 ≤ ciphers.length ∧
        ciphers.length < 2 ^ 31) :
    ∃ final, runRounds crypto pirParams (2 ^ 32)
        (importedMemory crypto pirParams maxFileBytesize inputData).database rounds
        (construct (importedMemory crypto pirParams maxFileBytesize inputData).heap) = some final ∧
      List.Forall₂ (Answered crypto pirParams (2 ^ 32)
        (crypto.publicParams.plaintexts (maxFileBytesize * pirParams.alpha) 0) inputData) rounds
        final.2 ∧
      final.1.live = (importedMemory crypto pirParams maxFileBytesize inputData).heap.live +
        (rounds.map (Round.kept (crypto.publicParams.plaintexts
          (maxFileBytesize * pirParams.alpha) (pirParams.d - 1)))).sum +
          (rounds.map Round.leaked).sum + if rounds = [] then 0 else 1 := by
  have serves := serves_importedMemory bounds bytes_pos few n_le elements_lt inputData
  rcases serves.live_runRounds pirParams.n_lt complete with ⟨final, runs, answered, live⟩
  rw [LatticesBasedCryptosystem.levelPolys_eq_plaintexts rfl bounds few] at live
  exact ⟨final, runs, answered, live⟩

/-- Sums of products, with the sizes of a lattice. -/
def wideSums : LatticesBasedCryptosystem ℕ ℕ :=
  { sums with
    absorptionBitsize := LatticesBasedCryptosystem.sized.absorptionBitsize
    ciphertextBitsize := LatticesBasedCryptosystem.sized.ciphertextBitsize }

/-- The second round has a request of 40 ciphertexts, and every other of its 256 replies is kept. -/
def squareRounds : List (Round ℕ) :=
  [⟨fun i j => if i = j then 1 else 0, none, fun _ => true⟩,
    ⟨fun _ j => j, some (List.replicate 40 2), fun i => i % 2 = 0⟩]

theorem runRounds_answers_square : ∃ final, runRounds wideSums square (2 ^ 32)
      (importedMemory wideSums square 100000 fun element poly => element + poly).database
      squareRounds
      (construct (importedMemory wideSums square 100000 fun element poly => element + poly).heap) =
        some final ∧
    final.1.live = (importedMemory wideSums square 100000 fun element poly =>
      element + poly).heap.live + (40 + 128) + 1 + 1 := by
  have sizes : wideSums.publicParams.SizeBounds :=
    LatticesBasedCryptosystem.sized_hasSizes.bounds
  have complete : ∀ round ∈ squareRounds, ∀ ciphers, round.request = some ciphers →
      wideSums.publicParams.plaintexts (100000 * square.alpha) 0 ≤ ciphers.length ∧
        ciphers.length < 2 ^ 31 := by
    intro round round_mem ciphers asked
    rcases List.mem_cons.mp round_mem with rfl | second
    · exact absurd asked (by simp)
    · rw [List.mem_singleton.mp second] at asked
      rw [← Option.some.inj asked]
      decide
  rcases runRounds_answers sizes (by decide) (by decide) (fun _ _ => (by decide : 2 ≤ 2 ^ 31))
    (by decide) (fun element poly => element + poly) complete with ⟨final, runs, -, live⟩
  refine ⟨final, runs, live.trans ?_⟩
  have kept : (squareRounds.map (Round.kept (wideSums.publicParams.plaintexts
      (100000 * square.alpha) (square.d - 1)))).sum = 40 + 128 := by decide +kernel
  rw [kept]
  rfl

end Sizes

end ReplyRounds

end Xpir
