import Mathlib.Logic.Equiv.Basic
import Xpir.ReplyExtraction.Retrieval

/-!
# Plain schemes

A plain scheme is an ideal scheme without any secret: a ciphertext is the level that it
belongs to and its plaintext. One byte of the plaintext, which depends on the level, is
exchanged with a fixed slot of the ciphertext. By the choice of this byte and of the slot,
a single byte of an element is led through all levels.

If some number of ciphertexts is wrong, or an offset wraps around, then there is a plain
scheme and a database with a single byte that the client does not find. This gives the
exact condition for the chosen element to be retrieved.
-/

namespace Xpir

namespace PIRReplyExtraction

section Blank

variable {params : PublicParameters} {pirParams : PIRParameters}
  {decrypt : ℕ → (ℕ → UInt8) → ℕ → UInt8} {recLvl fuel : ℕ} {aggregatedMaxFileSize : ℤ}
  {state next : LevelState}

/-- All bytes are zero. -/
def IsBlank (bytes : ℕ → UInt8) : Prop := ∀ i, bytes i = 0

structure LevelState.Blank (state : LevelState) : Prop where
  inData : IsBlank state.inData.bytes
  clearChunks : ∀ chunk ∈ state.clearChunks, IsBlank chunk

theorem IsBlank.memcpy {bytes source : ℕ → UInt8} (bytes_blank : IsBlank bytes)
    (source_blank : IsBlank source) (offset count : ℕ) :
    IsBlank (memcpy bytes offset source count) := by
  intro i
  rw [PIRReplyExtraction.memcpy]
  split
  next => exact source_blank _
  next => exact bytes_blank i

theorem blank_of_taken (preserves : ∀ recLvl data, IsBlank data → IsBlank (decrypt recLvl data))
    (chunks_blank : ∀ chunk ∈ state.clearChunks, IsBlank chunk)
    (taken_blank : ∀ number, params.ciphertextNbr recLvl aggregatedMaxFileSize = some number →
      ∀ j < number, ∀ taken, nextCiphertext params pirParams recLvl state.inData j
        (remaining pirParams recLvl j state.repliesBuffer) = some taken → IsBlank taken.1)
    (returns : extractLevel params pirParams decrypt fuel aggregatedMaxFileSize recLvl state =
      some next) : next.Blank := by
  rcases exists_of_extractLevel returns with ⟨number, final, number_eq, number_lt, loop, rfl⟩
  have kept := counterLoop_invariant (fun j inner =>
    inner.repliesBuffer = remaining pirParams recLvl j state.repliesBuffer ∧
      IsBlank inner.inData2b ∧ ∀ chunk ∈ inner.clearChunks, IsBlank chunk) number_lt
    (by
      rintro j inner after j_lt ⟨buffer_eq, inData_blank, chunks⟩ steps
      rcases Option.map_eq_some_iff.mp steps with ⟨taken, takes, rfl⟩
      rw [buffer_eq] at takes
      have rest_eq := (nextCiphertext_remaining takes).1
      have plain_blank := preserves recLvl _ (taken_blank number number_eq j j_lt taken takes)
      split
      next => exact ⟨rest_eq, inData_blank.memcpy plain_blank _ _, chunks⟩
      next =>
        refine ⟨rest_eq, inData_blank, ?_⟩
        intro chunk chunk_mem
        rcases List.mem_append.mp chunk_mem with before | last
        · exact chunks chunk before
        · rw [List.mem_singleton.mp last]
          exact plain_blank)
    ⟨by rw [remaining]; split <;> rfl, fun _ => rfl, chunks_blank⟩ loop
  exact ⟨kept.2.1, kept.2.2⟩

/-- After a first level of zero bytes only, all levels are zero. -/
theorem exists_of_extractReply {repliesBuffer clearChunks : List (ℕ → UInt8)}
    (preserves : ∀ recLvl data, IsBlank data → IsBlank (decrypt recLvl data))
    (returns : extractReply params pirParams decrypt fuel aggregatedMaxFileSize repliesBuffer =
      some clearChunks) :
    ∃ first, extractLevel params pirParams decrypt fuel aggregatedMaxFileSize pirParams.d
        ⟨repliesBuffer, ⟨0, fun _ => 0⟩, []⟩ = some first ∧
      (first.Blank → ∀ chunk ∈ clearChunks, IsBlank chunk) := by
  rcases Option.map_eq_some_iff.mp returns with ⟨final, runs, rfl⟩
  have kept := forLoop_induction pirParams.d
    (fun count state => Option.bind state
      (extractLevel params pirParams decrypt fuel aggregatedMaxFileSize (pirParams.d - count)))
    (some ⟨repliesBuffer, ⟨0, fun _ => 0⟩, []⟩)
    (fun count reached => ∀ state, reached = some state →
      if count = 0 then state = ⟨repliesBuffer, ⟨0, fun _ => 0⟩, []⟩
      else ∃ first, extractLevel params pirParams decrypt fuel aggregatedMaxFileSize pirParams.d
          ⟨repliesBuffer, ⟨0, fun _ => 0⟩, []⟩ = some first ∧ (first.Blank → state.Blank))
    (by
      rintro state ⟨⟩
      rw [if_pos rfl])
    (by
      intro count reached count_lt before next steps
      rcases Option.bind_eq_some_iff.mp steps with ⟨state, rfl, level⟩
      have current := before state rfl
      rw [if_neg (Nat.succ_ne_zero count)]
      rcases Nat.eq_zero_or_pos count with rfl | count_pos
      · rw [if_pos rfl] at current
        rw [current, Nat.sub_zero] at level
        exact ⟨next, level, id⟩
      · rw [if_neg count_pos.ne'] at current
        rcases current with ⟨first, first_eq, stays⟩
        refine ⟨first, first_eq, ?_⟩
        intro first_blank
        have blank := stays first_blank
        refine blank_of_taken preserves blank.clearChunks ?_ level
        intro number _ j _ taken takes
        have taken_eq := (nextCiphertext_remaining takes).2
        rw [if_neg (by omega)] at taken_eq
        rw [taken_eq]
        exact fun i => blank.inData _)
  have last := kept final runs
  rw [if_neg pirParams.d_pos.ne'] at last
  rcases last with ⟨first, first_eq, stays⟩
  exact ⟨first, first_eq, fun first_blank => (stays first_blank).clearChunks⟩

/-- The ciphertexts that are taken at the last level are those of the reply. -/
theorem taken_of_replies {ciphertexts : ℕ → ℕ → UInt8} {count j : ℕ} {inData : Allocation}
    {taken : (ℕ → UInt8) × List (ℕ → UInt8)}
    (takes : nextCiphertext params pirParams pirParams.d inData j
      (remaining pirParams pirParams.d j ((List.range count).map ciphertexts)) = some taken) :
    j < count ∧ taken.1 = ciphertexts j := by
  have taken_eq := (nextCiphertext_remaining takes).2
  rw [if_pos rfl, List.getElem?_map] at taken_eq
  rcases Option.map_eq_some_iff.mp taken_eq with ⟨index, index_eq, same⟩
  rcases List.getElem?_eq_some_iff.mp index_eq with ⟨inside, rfl⟩
  rw [List.length_range] at inside
  rw [← same, List.getElem_range]
  exact ⟨inside, rfl⟩

theorem Queued.eq_zero {size count : ℕ} {plaintexts : ℕ → ℕ → UInt8}
    {clearChunks : List (ℕ → UInt8)} (queued : Queued size plaintexts count clearChunks)
    (blank : ∀ chunk ∈ clearChunks, IsBlank chunk) {j i : ℕ} (j_lt : j < count) (i_lt : i < size) :
    plaintexts j i = 0 := by
  have inside : j < clearChunks.length := by
    rw [queued.1]
    exact j_lt
  rw [← queued.2 j j_lt i i_lt, List.getD_eq_getElem _ _ inside]
  exact blank _ (List.getElem_mem inside) i

end Blank

end PIRReplyExtraction

open PIRReplyExtraction

theorem mul_add_eq_iff {size left right i j : ℕ} (i_lt : i < size) (j_lt : j < size) :
    left * size + i = right * size + j ↔ left = right ∧ i = j := by
  constructor
  · intro same
    have remainders := congrArg (· % size) same
    rw [Nat.mul_add_mod', Nat.mul_add_mod', Nat.mod_eq_of_lt i_lt, Nat.mod_eq_of_lt j_lt]
      at remainders
    rw [remainders, Nat.add_right_cancel_iff] at same
    exact ⟨Nat.eq_of_mul_eq_mul_right (Nat.zero_lt_of_lt i_lt) same, remainders⟩
  · rintro ⟨rfl, rfl⟩
    rfl

/-- A byte, if the number is one. -/
def toByte (value : ℤ) : UInt8 := if 0 ≤ value ∧ value < 256 then UInt8.ofNat value.toNat else 0

theorem toByte_toNat (byte : UInt8) : toByte (byte.toNat : ℤ) = byte := by
  have byte_lt := byte.toNat_lt
  rw [toByte, if_pos (by omega), Int.toNat_natCast, UInt8.ofNat_toNat]

/-- A ciphertext is the level that it belongs to, and the bytes of the plaintext. -/
structure PlainScheme where
  params : PublicParameters
  /-- The byte of the plaintexts of a level that is exchanged with the slot. -/
  mark : ℕ → ℕ
  slot : ℕ
  mark_lt : ∀ recLvl, mark recLvl < params.absorptionBytesize
  slot_lt : slot < params.ciphertextBytesize
  absorption_le : params.absorptionBytesize ≤ params.ciphertextBytesize

namespace PlainScheme

variable (scheme : PlainScheme)

def place (recLvl : ℕ) : Equiv.Perm ℕ := Equiv.swap (scheme.mark recLvl) scheme.slot

def cipherBytes (cipher : ℕ × (ℕ → ℤ)) (position : ℕ) : UInt8 :=
  if scheme.place cipher.1 position < scheme.params.absorptionBytesize then
    toByte (cipher.2 (scheme.place cipher.1 position))
  else 0

def plainBytes (poly : ℕ → ℤ) (i : ℕ) : UInt8 := toByte (poly i)

def encrypt (_ : Unit) (ui level : ℕ) : ℕ × (ℕ → ℤ) := (level, fun _ => ui)

def decrypt (recLvl : ℕ) (data : ℕ → UInt8) (i : ℕ) : UInt8 := data (scheme.place recLvl i)

/-- The bytes of some ciphertexts, followed by zeros. -/
def concatenated (ciphers : ℕ → ℕ × (ℕ → ℤ)) (count position : ℕ) : UInt8 :=
  if position < count * scheme.params.ciphertextBytesize then
    scheme.cipherBytes (ciphers (position / scheme.params.ciphertextBytesize))
      (position % scheme.params.ciphertextBytesize)
  else 0

def crypto : LatticesBasedCryptosystem (ℕ → ℤ) (ℕ × (ℕ → ℤ)) where
  zero := (0, 0)
  mulandadd := fun rop data query => (query.1, rop.2 + query.2 * data)
  sub := fun left right => (left.1, left.2 - right.2)
  deserializeDataNFL := fun ciphers count poly i =>
    (scheme.concatenated ciphers count (poly * scheme.params.absorptionBytesize + i)).toNat
  absorptionBitsize := scheme.params.absorptionBitsize
  ciphertextBitsize := scheme.params.ciphertextBitsize

theorem homomorphic : LinearlyHomomorphic scheme.crypto encrypt Prod.snd := by
  intro terms level
  have shifted : ∀ rop : ℕ × (ℕ → ℤ), (terms.foldl (fun rop term =>
      scheme.crypto.mulandadd rop term.1 (encrypt term.2.1 term.2.2 level)) rop).2 =
        rop.2 + (terms.map fun term => term.2.2 • term.1).sum := by
    induction terms with
    | nil => simp
    | cons term terms ih =>
        intro rop
        rw [List.foldl_cons, ih, List.map_cons, List.sum_cons, ← add_assoc, nsmul_eq_mul]
        rfl
  rw [shifted]
  exact zero_add _

/-- The empty sum belongs to no level, but has the same bytes at each. -/
theorem cipherBytes_sumOfProducts (terms : List ((ℕ → ℤ) × Unit × ℕ)) (recLvl : ℕ) :
    scheme.cipherBytes (sumOfProducts scheme.crypto encrypt terms recLvl) =
      scheme.cipherBytes (recLvl, (sumOfProducts scheme.crypto encrypt terms recLvl).2) := by
  rcases List.eq_nil_or_concat terms with rfl | ⟨before, last, rfl⟩
  · funext position
    simp [sumOfProducts, cipherBytes, crypto, toByte]
  · rw [sumOfProducts, List.concat_eq_append, List.foldl_append]
    rfl

theorem decrypt_cipherBytes {recLvl : ℕ} {poly : ℕ → ℤ} {data : ℕ → UInt8}
    (data_eq : ∀ i < scheme.params.ciphertextBytesize,
      data i = scheme.cipherBytes (recLvl, poly) i) {i : ℕ}
    (i_lt : i < scheme.params.absorptionBytesize) :
    scheme.decrypt recLvl data i = plainBytes poly i := by
  have larger := scheme.absorption_le
  have mark_lt := scheme.mark_lt recLvl
  have slot_lt := scheme.slot_lt
  have inside : scheme.place recLvl i < scheme.params.ciphertextBytesize := by
    rw [place, Equiv.swap_apply_def]
    split_ifs <;> omega
  rw [decrypt, data_eq _ inside, cipherBytes]
  dsimp only
  rw [place, Equiv.swap_apply_self, if_pos i_lt, plainBytes]

theorem ideal (pirParams : PIRParameters) (nbPolys : ℕ) :
    Ideal pirParams scheme.crypto encrypt Prod.snd scheme.cipherBytes plainBytes scheme.decrypt
      nbPolys where
  homomorphic := scheme.homomorphic
  decrypts := by
    intro recLvl terms data data_eq i i_lt
    rw [scheme.cipherBytes_sumOfProducts] at data_eq
    exact scheme.decrypt_cipherBytes data_eq i_lt
  lossless := by
    intro level _ ciphers position position_lt
    change toByte ((scheme.concatenated ciphers _ (position / scheme.params.absorptionBytesize *
      scheme.params.absorptionBytesize + position % scheme.params.absorptionBytesize)).toNat : ℤ) = _
    rw [toByte_toNat, Nat.div_add_mod']
    exact if_pos position_lt

section Server

variable {scheme} {pirParams : PIRParameters} {chosenElement fuel nbPolys : ℕ}
  {buffer : PIRParameters.QueriesBuffer (ℕ × (ℕ → ℤ))} {inputData : ℕ → ℕ → ℕ → ℤ}
  {final : LatticesBasedCryptosystem.ReplyState (ℕ → ℤ) (ℕ × (ℕ → ℤ))}

/-- The bytes of a result are those of an element of its block, perhaps taken several times. -/
theorem exists_cipherBytes
    (received : pirParams.Received (pirParams.queryElement encrypt (fun _ _ => ()) chosenElement)
      pirParams.d 0 buffer)
    (returns : scheme.crypto.generateReply pirParams fuel buffer.queriesBuf inputData nbPolys none =
      some final) {level j poly : ℕ} (level_lt : level < pirParams.d)
    (j_lt : j < pirParams.nbElements (level + 1))
    (poly_lt : poly < scheme.crypto.levelPolys nbPolys level) :
    ∃ count : ℕ, ∃ element < pirParams.nbElements level,
      (if pirParams.n level ≤ maxQuerySize then count = 1
        else pirParams.computeCoordinates chosenElement level = 8 → count = 2) ∧
      scheme.cipherBytes (final.interReply level j poly) = scheme.cipherBytes (level + 1,
        count • scheme.crypto.levelData inputData nbPolys final.interReply level element poly) := by
  have coordinate_lt := pirParams.computeCoordinates_lt chosenElement level_lt
  rcases exists_indices received returns level_lt j_lt poly_lt with ⟨indices, indices_eq, result⟩
  refine ⟨indices.count (pirParams.computeCoordinates chosenElement level), _,
    LatticesBasedCryptosystem.index_lt level_lt j_lt coordinate_lt, ?_, ?_⟩
  · split
    next fits =>
      rw [if_pos fits] at indices_eq
      rw [indices_eq]
      exact List.count_eq_one_of_mem List.nodup_range (List.mem_range.mpr coordinate_lt)
    next exceeds =>
      rw [if_neg exceeds] at indices_eq
      intro coordinate
      rw [coordinate]
      exact indices_eq
  · rw [result, cipherBytes_sumOfProducts, scheme.homomorphic.dec_sumOfProducts]

theorem levelData_succ (interReply : ℕ → ℕ → ℕ → ℕ × (ℕ → ℤ)) (level element poly i : ℕ) :
    scheme.crypto.levelData inputData nbPolys interReply (level + 1) element poly i =
      (scheme.concatenated (interReply level element) (scheme.crypto.levelPolys nbPolys level)
        (poly * scheme.params.absorptionBytesize + i)).toNat := rfl

theorem toByte_twoHundred (count : ℕ) : toByte (count • 200) = if count = 1 then 200 else 0 := by
  rw [nsmul_eq_mul, toByte]
  split_ifs with inside single
  · rw [single]
    rfl
  · have count_eq : count = 0 := by omega
    rw [count_eq]
    rfl
  · omega
  · rfl

theorem byte_of_count {level last count : ℕ} {values : ℕ → ℤ}
    (values_eq : ∀ i, values i = 0 ∨ values i = 200 ∧ level ≤ last)
    (repeated : level = last → 2 ≤ count) (position : ℕ) :
    scheme.cipherBytes (level + 1, count • values) position = 0 ∨
      scheme.cipherBytes (level + 1, count • values) position = 200 ∧ level < last := by
  rw [cipherBytes]
  split
  next =>
    dsimp only
    rw [Pi.smul_apply]
    rcases values_eq (scheme.place (level + 1) position) with zero | ⟨full, le⟩
    · rw [zero, smul_zero]
      exact Or.inl rfl
    · rw [full, toByte_twoHundred]
      split
      next single => exact Or.inr ⟨rfl, lt_of_le_of_ne le fun same => by have := repeated same; omega⟩
      next => exact Or.inl rfl
  next => exact Or.inl rfl

/-- If elements are taken twice at some level, then no byte of the value 200 gets beyond it. -/
theorem byte_of_exceeds
    (received : pirParams.Received (pirParams.queryElement encrypt (fun _ _ => ()) chosenElement)
      pirParams.d 0 buffer)
    (returns : scheme.crypto.generateReply pirParams fuel buffer.queriesBuf (fun _ _ _ => 200) nbPolys
      none = some final) {last : ℕ} (exceeds : ¬ pirParams.n last ≤ maxQuerySize)
    (coordinate : pirParams.computeCoordinates chosenElement last = 8) {level : ℕ}
    (level_lt : level < pirParams.d) {j : ℕ} (j_lt : j < pirParams.nbElements (level + 1)) {poly : ℕ}
    (poly_lt : poly < scheme.crypto.levelPolys nbPolys level) (position : ℕ) :
    scheme.cipherBytes (final.interReply level j poly) position = 0 ∨
      scheme.cipherBytes (final.interReply level j poly) position = 200 ∧ level < last := by
  induction level generalizing j poly position with
  | zero =>
      rcases exists_cipherBytes received returns level_lt j_lt poly_lt with
        ⟨count, element, element_lt, count_eq, bytes_eq⟩
      rw [bytes_eq]
      refine byte_of_count (fun i => Or.inr ⟨rfl, Nat.zero_le last⟩) ?_ position
      rintro rfl
      rw [if_neg exceeds] at count_eq
      exact (count_eq coordinate).ge
  | succ level ih =>
      rcases exists_cipherBytes received returns level_lt j_lt poly_lt with
        ⟨count, element, element_lt, count_eq, bytes_eq⟩
      rw [bytes_eq]
      refine byte_of_count ?_ ?_ position
      · intro i
        rw [levelData_succ, concatenated]
        split
        next inside =>
          have earlier : level < pirParams.d := by omega
          have ciphertext_pos := Nat.zero_lt_of_lt scheme.slot_lt
          rcases ih earlier element_lt ((Nat.div_lt_iff_lt_mul ciphertext_pos).mpr inside)
            ((poly * scheme.params.absorptionBytesize + i) % scheme.params.ciphertextBytesize) with
            zero | ⟨full, before⟩
          · rw [zero]
            exact Or.inl rfl
          · rw [full]
            exact Or.inr ⟨rfl, before⟩
        next => exact Or.inl rfl
      · rintro rfl
        rw [if_neg exceeds] at count_eq
        exact (count_eq coordinate).ge

end Server

section Marked

/-- Where the byte of the database is among the plaintexts of each level. -/
def markAt (params : PublicParameters) (slot first : ℕ) : ℕ → ℕ
  | 0 => first
  | level + 1 => markAt params slot first level / params.absorptionBytesize *
      params.ciphertextBytesize + slot

/-- The byte at a place of an element is led through the slots of its ciphertexts. -/
def marked {params : PublicParameters} (bounds : params.SizeBounds) (first : ℕ) {slot : ℕ}
    (slot_lt : slot < params.ciphertextBytesize) : PlainScheme where
  params := params
  mark := fun recLvl => markAt params slot first (recLvl - 1) % params.absorptionBytesize
  slot := slot
  mark_lt := fun _ => Nat.mod_lt _ bounds.absorption_pos
  slot_lt := slot_lt
  absorption_le := bounds.absorption_le

/-- A database with a single byte in each element. -/
def markedData (params : PublicParameters) (first : ℕ) (_ poly i : ℕ) : ℤ :=
  if poly * params.absorptionBytesize + i = first then 1 else 0

variable {params : PublicParameters} (bounds : params.SizeBounds) {first slot : ℕ}
  (slot_lt : slot < params.ciphertextBytesize) {pirParams : PIRParameters}
  {chosenElement fuel nbPolys : ℕ} {buffer : PIRParameters.QueriesBuffer (ℕ × (ℕ → ℤ))}
  {final : LatticesBasedCryptosystem.ReplyState (ℕ → ℤ) (ℕ × (ℕ → ℤ))}

theorem cipherBytes_marked {level poly : ℕ} {values : ℕ → ℤ}
    (values_eq : ∀ i < params.absorptionBytesize, values i =
      if poly * params.absorptionBytesize + i = markAt params slot first level then 1 else 0)
    {position : ℕ} (position_lt : position < params.ciphertextBytesize) :
    (marked bounds first slot_lt).cipherBytes (level + 1, values) position =
      if poly * params.ciphertextBytesize + position = markAt params slot first (level + 1) then 1
      else 0 := by
  have mark_lt := Nat.mod_lt (markAt params slot first level) bounds.absorption_pos
  have split_mark := Nat.div_add_mod' (markAt params slot first level) params.absorptionBytesize
  have place_slot : (marked bounds first slot_lt).place (level + 1) slot =
      markAt params slot first level % params.absorptionBytesize := Equiv.swap_apply_right _ _
  have value : ∀ i < params.absorptionBytesize, toByte (values i) =
      if poly = markAt params slot first level / params.absorptionBytesize ∧
        i = markAt params slot first level % params.absorptionBytesize then 1 else 0 := by
    intro i i_lt
    have same_iff := @mul_add_eq_iff _ poly
      (markAt params slot first level / params.absorptionBytesize) _ _ i_lt mark_lt
    rw [split_mark] at same_iff
    rw [values_eq i i_lt]
    simp only [same_iff]
    split <;> rfl
  rw [markAt]
  simp only [mul_add_eq_iff position_lt slot_lt]
  change (if (marked bounds first slot_lt).place (level + 1) position < params.absorptionBytesize
    then toByte (values ((marked bounds first slot_lt).place (level + 1) position)) else 0) = _
  by_cases at_slot : position = slot
  · rw [at_slot, place_slot, if_pos mark_lt, value _ mark_lt]
    simp only [and_true]
  · have elsewhere : (marked bounds first slot_lt).place (level + 1) position ≠
        markAt params slot first level % params.absorptionBytesize := by
      rw [← place_slot]
      exact fun same => at_slot (Equiv.injective _ same)
    have right : ¬ (poly = markAt params slot first level / params.absorptionBytesize ∧
        position = slot) := fun both => at_slot both.2
    rw [if_neg right]
    split
    next inside =>
      rw [value _ inside]
      exact if_neg fun both => elsewhere both.2
    next => rfl

theorem levelData_marked (rounds : LatticesBasedCryptosystem.RoundsFit pirParams)
    (received : pirParams.Received (pirParams.queryElement encrypt (fun _ _ => ()) chosenElement)
      pirParams.d 0 buffer)
    (returns : (marked bounds first slot_lt).crypto.generateReply pirParams fuel buffer.queriesBuf
      (markedData params first) nbPolys none = some final)
    (inside : ∀ level < pirParams.d, markAt params slot first level / params.absorptionBytesize <
      (marked bounds first slot_lt).crypto.levelPolys nbPolys level) {level : ℕ}
    (level_lt : level < pirParams.d) {element : ℕ} (element_lt : element < pirParams.nbElements level)
    {poly i : ℕ} (poly_lt : poly < (marked bounds first slot_lt).crypto.levelPolys nbPolys level)
    (i_lt : i < params.absorptionBytesize) :
    (marked bounds first slot_lt).crypto.levelData (markedData params first) nbPolys final.interReply
        level element poly i =
      if poly * params.absorptionBytesize + i = markAt params slot first level then 1 else 0 := by
  induction level generalizing element poly i with
  | zero => rfl
  | succ level ih =>
      have earlier : level < pirParams.d := by omega
      have ciphertext_pos := Nat.zero_lt_of_lt slot_lt
      change (((if poly * params.absorptionBytesize + i <
          (marked bounds first slot_lt).crypto.levelPolys nbPolys level * params.ciphertextBytesize
        then (marked bounds first slot_lt).cipherBytes (final.interReply level element
          ((poly * params.absorptionBytesize + i) / params.ciphertextBytesize))
          ((poly * params.absorptionBytesize + i) % params.ciphertextBytesize)
        else 0 : UInt8).toNat : ℕ) : ℤ) = _
      split
      next within =>
        have quotient_lt := (Nat.div_lt_iff_lt_mul ciphertext_pos).mpr within
        rcases exists_cipherBytes received returns earlier element_lt quotient_lt with
          ⟨count, block, block_lt, count_eq, bytes_eq⟩
        rw [if_pos (rounds level earlier)] at count_eq
        rw [bytes_eq, count_eq, one_smul, cipherBytes_marked bounds slot_lt
          (fun i i_lt => ih earlier block_lt quotient_lt i_lt) (Nat.mod_lt _ ciphertext_pos),
          Nat.div_add_mod']
        split <;> rfl
      next outside =>
        rw [if_neg]
        · rfl
        rintro same
        apply outside
        rw [same, markAt]
        have quotient_lt := inside level earlier
        calc markAt params slot first level / params.absorptionBytesize *
              params.ciphertextBytesize + slot
            < markAt params slot first level / params.absorptionBytesize *
              params.ciphertextBytesize + params.ciphertextBytesize := Nat.add_lt_add_left slot_lt _
          _ = (markAt params slot first level / params.absorptionBytesize + 1) *
              params.ciphertextBytesize := (Nat.succ_mul _ _).symm
          _ ≤ _ := Nat.mul_le_mul_right _ quotient_lt

/-- Only the reply of the mark is not zero, and it holds a single byte. -/
theorem exists_reply (rounds : LatticesBasedCryptosystem.RoundsFit pirParams)
    (received : pirParams.Received (pirParams.queryElement encrypt (fun _ _ => ()) chosenElement)
      pirParams.d 0 buffer)
    (returns : (marked bounds first slot_lt).crypto.generateReply pirParams fuel buffer.queriesBuf
      (markedData params first) nbPolys none = some final)
    (inside : ∀ level < pirParams.d, markAt params slot first level / params.absorptionBytesize <
      (marked bounds first slot_lt).crypto.levelPolys nbPolys level) {poly : ℕ}
    (poly_lt : poly < (marked bounds first slot_lt).crypto.levelPolys nbPolys (pirParams.d - 1)) :
    ∃ values : ℕ → ℤ,
      (marked bounds first slot_lt).cipherBytes
          (LatticesBasedCryptosystem.repliesArray pirParams final poly) =
        (marked bounds first slot_lt).cipherBytes (pirParams.d, values) ∧
      ∀ i < params.absorptionBytesize, values i = if poly * params.absorptionBytesize + i =
        markAt params slot first (pirParams.d - 1) then 1 else 0 := by
  have last : pirParams.d - 1 < pirParams.d := Nat.sub_lt pirParams.d_pos Nat.one_pos
  have d_eq : pirParams.d - 1 + 1 = pirParams.d := Nat.sub_add_cancel pirParams.d_pos
  rcases exists_cipherBytes received returns last (pirParams.nbElements_pos _) poly_lt with
    ⟨count, element, element_lt, count_eq, bytes_eq⟩
  rw [if_pos (rounds _ last)] at count_eq
  rw [count_eq, one_smul, d_eq] at bytes_eq
  exact ⟨_, bytes_eq, fun i i_lt =>
    levelData_marked bounds slot_lt rounds received returns inside last element_lt poly_lt i_lt⟩

end Marked

end PlainScheme

end Xpir
