import Xpir.ReplyGenerator.LargeReplies
import Xpir.ReplyGenerator.MaskedReplies
import Xpir.ReplyGenerator.ReplyThreads

/-!
# Replies of several iterations

This file computes the sizes of the iterations of a database that is too large for the
memory. They store the replies of the plaintexts of the whole files one after the other, so
that the results about the two threads apply.
-/

namespace Xpir

/-- The files of a database, padded with zeros to the size of the largest. -/
structure DBStreams where
  maxFileBytesize : ℕ
  nbStream : ℕ
  bytes : ℕ → ℕ → UInt8
  maxFileBytesize_pos : 0 < maxFileBytesize
  nbStream_pos : 0 < nbStream

/-- The bytes of an element that are read at once. -/
def DBStreams.rawBits (db : DBStreams) (offset bytes_per_file element : ℕ) : List UInt8 :=
  (List.range (PublicParameters.fileByteSize db.maxFileBytesize offset bytes_per_file)).map
    fun byte => db.bytes element (offset + byte)

namespace PIRReplyGenerator

section Database

variable {Poly Cipher : Type} (crypto : LatticesBasedCryptosystem Poly Cipher)
  (pirParams : PIRParameters) (totalSystemMemory : ℕ) (db : DBStreams)

/-- The number of iterations, and the bytes of each file that are read in each of them. -/
def readSizes : ℕ × ℕ :=
  iterations crypto.publicParams pirParams totalSystemMemory db.maxFileBytesize db.nbStream

def genericSizes : Option GenericSizes :=
  let max_readable_size := (readSizes crypto pirParams totalSystemMemory db).2
  let nbr_of_iterations := (readSizes crypto pirParams totalSystemMemory db).1
  (crypto.publicParams.computeReplySizeInChunks pirParams db.maxFileBytesize).bind
    fun repliesAmount =>
      (fillLoop nbr_of_iterations (fun iteration =>
        crypto.publicParams.computeReplySizeInChunks pirParams (iteration * max_readable_size))
        (fun _ => 0)).map fun repliesIndex =>
          { nbr_of_iterations
            repliesIndex
            currentMaxNbPolys :=
              iterationPolys crypto.publicParams pirParams db.maxFileBytesize max_readable_size
            repliesAmount }

/-- The bytes of a plaintext of those that some bytes are cut into. -/
def plaintextBytes (rawBits : List UInt8) (poly : ℕ) : List UInt8 :=
  (rawBits.drop (poly * crypto.publicParams.absorptionBytesize)).take
    crypto.publicParams.absorptionBytesize

/-- The rounds over the queries have as much fuel as the counter has values. -/
def polyReply (deserialize : List UInt8 → Poly) (padding : Poly) (queries : ℕ → Cipher)
    (plaintext : ℕ → List UInt8) : Option Cipher :=
  crypto.absorb (2 ^ 32) (pirParams.n 0)
    (fun element =>
      if element < nbruns pirParams db.nbStream then deserialize (plaintext element) else padding)
    queries none

variable (deserialize : List UInt8 → Poly) (padding : Poly) (queries : ℕ → Cipher)

/-- The reply that an iteration computes for a polynomial of what it has read. -/
def iterationReply (iteration current_poly : ℕ) : Option Cipher :=
  let max_readable_size := (readSizes crypto pirParams totalSystemMemory db).2
  polyReply crypto pirParams db deserialize padding queries fun element =>
    plaintextBytes crypto (db.rawBits (iteration * max_readable_size) max_readable_size element)
      current_poly

/-- The reply for a plaintext of the whole files. -/
def chunkReply (k : ℕ) : Option Cipher :=
  polyReply crypto pirParams db deserialize padding queries fun element =>
    plaintextBytes crypto (db.rawBits 0 db.maxFileBytesize element) k

/-- In a run of the two threads, the reply of each plaintext is there until it has been sent. -/
def RepliesSurvive (schedule : List ReplyThread) : Prop :=
  ∃ sizes replies, genericSizes crypto pirParams totalSystemMemory db = some sizes ∧
    (∀ k < sizes.repliesAmount,
      chunkReply crypto pirParams db deserialize padding queries k = some (replies k)) ∧
    ReplyThreads.Survive sizes
      (iterationReply crypto pirParams totalSystemMemory db deserialize padding queries) replies
      schedule

end Database

section Iterations

variable {Poly Cipher : Type} {crypto : LatticesBasedCryptosystem Poly Cipher}
  {pirParams : PIRParameters} {totalSystemMemory : ℕ} {db : DBStreams}
  {deserialize : List UInt8 → Poly} {padding : Poly} {queries : ℕ → Cipher}

theorem single_of_several (several : 1 < (readSizes crypto pirParams totalSystemMemory db).1) :
    pirParams.alpha = 1 ∧ pirParams.d = 1 := by
  have d_pos := pirParams.d_pos
  rw [readSizes, iterations] at several
  split at several
  next => exact absurd several (lt_irrefl 1)
  next single => exact ⟨by omega, by omega⟩

/-- In several iterations, whole plaintexts are read, except for the last ones. -/
theorem readSizes_eq (bounds : crypto.publicParams.SizeBounds) (small : db.maxFileBytesize < 2 ^ 53)
    (several : 1 < (readSizes crypto pirParams totalSystemMemory db).1) :
    ∃ polys, 0 < polys ∧ readSizes crypto pirParams totalSystemMemory db =
      (db.maxFileBytesize ⌈/⌉ (polys * crypto.publicParams.absorptionBytesize),
        polys * crypto.publicParams.absorptionBytesize) := by
  have size_pos := db.maxFileBytesize_pos
  have absorption_pos := bounds.absorption_pos
  rcases single_of_several several with ⟨alpha_eq, d_eq⟩
  have sizes_eq : readSizes crypto pirParams totalSystemMemory db =
      (⌈toDouble (toDouble db.maxFileBytesize / toDouble (readableSize crypto.publicParams
        totalSystemMemory db.maxFileBytesize db.nbStream))⌉₊,
        readableSize crypto.publicParams totalSystemMemory db.maxFileBytesize db.nbStream) := by
    rw [readSizes, iterations]
    exact if_neg (by rw [alpha_eq, d_eq]; omega)
  have whole : ∃ polys, 0 < polys ∧ readableSize crypto.publicParams totalSystemMemory
      db.maxFileBytesize db.nbStream =
        min (polys * crypto.publicParams.absorptionBytesize) db.maxFileBytesize := by
    rw [readableSize, bounds.absorption_eq]
    generalize totalSystemMemory / 2 / db.nbStream / 4 * 8 /
      (8 * crypto.publicParams.absorptionBytesize) = polys
    have bytes_eq : polys * (8 * crypto.publicParams.absorptionBytesize) / 8 =
        polys * crypto.publicParams.absorptionBytesize := by
      rw [Nat.mul_left_comm, Nat.mul_div_cancel_left _ (by decide)]
    rw [bytes_eq]
    split
    next => exact ⟨8, by decide, rfl⟩
    next enough => exact ⟨polys, Nat.pos_of_mul_pos_right (Nat.pos_of_ne_zero enough), rfl⟩
  rcases whole with ⟨polys, polys_pos, readable_eq⟩
  rw [sizes_eq, readable_eq] at several
  rw [sizes_eq, readable_eq]
  rcases Nat.lt_or_ge (polys * crypto.publicParams.absorptionBytesize) db.maxFileBytesize with
    part | all
  · have ceil_eq : ⌈toDouble (toDouble db.maxFileBytesize /
        toDouble (polys * crypto.publicParams.absorptionBytesize : ℕ))⌉₊ =
          db.maxFileBytesize ⌈/⌉ (polys * crypto.publicParams.absorptionBytesize) :=
      natCeil_roundTo_quotient small (by omega) (Nat.mul_pos polys_pos absorption_pos)
    rw [Nat.min_eq_left part.le, ceil_eq]
    exact ⟨polys, polys_pos, rfl⟩
  · have ceil_eq : ⌈toDouble (toDouble db.maxFileBytesize / toDouble db.maxFileBytesize)⌉₊ =
        db.maxFileBytesize ⌈/⌉ db.maxFileBytesize :=
      natCeil_roundTo_quotient small small size_pos
    have single : db.maxFileBytesize ⌈/⌉ db.maxFileBytesize ≤ 1 :=
      (ceilDiv_le_iff_le_mul size_pos).mpr (Nat.mul_one _).ge
    rw [Nat.min_eq_right all, ceil_eq] at several
    exact absurd several (not_lt.mpr single)

theorem take_drop_map_range {Value : Type} (value : ℕ → Value) (count first size : ℕ) :
    (((List.range count).map value).drop first).take size =
      (List.range (min size (count - first))).map fun i => value (first + i) := by
  rw [← List.map_drop, ← List.map_take, List.range_eq_range', List.drop_range', Nat.mul_one,
    Nat.zero_add, List.range'_eq_map_range, ← List.map_take, List.take_range, List.map_map]
  rfl

/-- The plaintexts of an iteration are plaintexts of the whole files. -/
theorem plaintextBytes_eq {polys iteration current_poly : ℕ} (element : ℕ)
    (small : db.maxFileBytesize < 2 ^ 53)
    (offset_le : iteration * (polys * crypto.publicParams.absorptionBytesize) ≤ db.maxFileBytesize)
    (poly_lt : current_poly < polys) :
    plaintextBytes crypto
        (db.rawBits (iteration * (polys * crypto.publicParams.absorptionBytesize))
          (polys * crypto.publicParams.absorptionBytesize) element) current_poly =
      plaintextBytes crypto (db.rawBits 0 db.maxFileBytesize element)
        (iteration * polys + current_poly) := by
  generalize size_eq : crypto.publicParams.absorptionBytesize = size at offset_le ⊢
  have place_eq : (iteration * polys + current_poly) * size =
      iteration * (polys * size) + current_poly * size := by
    rw [Nat.add_mul, Nat.mul_assoc]
  have inside : current_poly * size + size ≤ polys * size := by
    rw [← Nat.succ_mul]
    exact Nat.mul_le_mul_right size poly_lt
  have count_eq : min size (PublicParameters.fileByteSize db.maxFileBytesize
      (iteration * (polys * size)) (polys * size) - current_poly * size) =
        min size (PublicParameters.fileByteSize db.maxFileBytesize 0 db.maxFileBytesize -
          (iteration * polys + current_poly) * size) := by
    rw [PublicParameters.fileByteSize, PublicParameters.fileByteSize,
      wordSub_eq_sub offset_le (by omega), wordSub_eq_sub (Nat.zero_le _) (by omega),
      place_eq]
    omega
  rw [plaintextBytes, plaintextBytes, size_eq, DBStreams.rawBits, DBStreams.rawBits,
    take_drop_map_range, take_drop_map_range, count_eq]
  apply List.map_congr_left
  intro byte _
  rw [Nat.zero_add, place_eq, Nat.add_assoc]

/-- The number of plaintexts of some whole plaintexts and of the rest. -/
theorem ceilDiv_add_mul {bytes size whole : ℕ} (size_pos : 0 < size) (le : whole * size ≤ bytes) :
    bytes ⌈/⌉ size = whole + (bytes - whole * size) ⌈/⌉ size := by
  rw [Nat.ceilDiv_eq_add_pred_div, Nat.ceilDiv_eq_add_pred_div,
    show bytes + size - 1 = bytes - whole * size + size - 1 + whole * size by omega,
    Nat.add_mul_div_right _ _ size_pos, Nat.add_comm]

theorem computeReplySizeInChunks_eq (bounds : crypto.publicParams.SizeBounds)
    (alpha_eq : pirParams.alpha = 1)
    (d_eq : pirParams.d = 1) (size : ℕ) :
    crypto.publicParams.computeReplySizeInChunks pirParams size =
      if size ⌈/⌉ crypto.publicParams.absorptionBytesize < 2 ^ 32 then
        some (size ⌈/⌉ crypto.publicParams.absorptionBytesize)
      else none := by
  rw [bounds.computeReplySizeInChunks_eq_ite, alpha_eq, d_eq, Nat.mul_one,
    Nat.sub_self, PublicParameters.plaintexts]

theorem lt_of_lt_ceilDiv {bytes size iteration : ℕ} (size_pos : 0 < size)
    (lt : iteration < bytes ⌈/⌉ size) : iteration * size < bytes := by
  rw [Nat.mul_comm]
  exact lt_of_not_ge fun le => absurd ((ceilDiv_le_iff_le_mul size_pos).mpr le) (not_le.mpr lt)

/-- The numbers of a database that takes several iterations. -/
theorem genericSizes_eq (bounds : crypto.publicParams.SizeBounds)
    (several : 1 < (readSizes crypto pirParams totalSystemMemory db).1)
    (few : db.maxFileBytesize ⌈/⌉ crypto.publicParams.absorptionBytesize < 2 ^ 32) {polys : ℕ}
    (polys_pos : 0 < polys) (sizes_eq : readSizes crypto pirParams totalSystemMemory db =
      (db.maxFileBytesize ⌈/⌉ (polys * crypto.publicParams.absorptionBytesize),
        polys * crypto.publicParams.absorptionBytesize)) :
    ∃ sizes, genericSizes crypto pirParams totalSystemMemory db = some sizes ∧
      sizes.nbr_of_iterations =
        db.maxFileBytesize ⌈/⌉ (polys * crypto.publicParams.absorptionBytesize) ∧
      sizes.repliesAmount = db.maxFileBytesize ⌈/⌉ crypto.publicParams.absorptionBytesize ∧
      ∀ iteration < sizes.nbr_of_iterations, sizes.repliesIndex iteration = iteration * polys ∧
        sizes.currentMaxNbPolys iteration =
          min (polys * crypto.publicParams.absorptionBytesize)
            (db.maxFileBytesize - iteration * (polys * crypto.publicParams.absorptionBytesize)) ⌈/⌉
              crypto.publicParams.absorptionBytesize := by
  have absorption_pos := bounds.absorption_pos
  have read_pos := Nat.mul_pos polys_pos absorption_pos
  rcases single_of_several several with ⟨alpha_eq, d_eq⟩
  have small : db.maxFileBytesize < 2 ^ 53 :=
    (@PublicParameters.SizeBounds.bytes_lt_of_range _ bounds _ 0 few).trans (by decide)
  have amount_eq := computeReplySizeInChunks_eq bounds alpha_eq d_eq
    db.maxFileBytesize
  rw [if_pos few] at amount_eq
  have index_eq : ∀ iteration <
      db.maxFileBytesize ⌈/⌉ (polys * crypto.publicParams.absorptionBytesize),
      crypto.publicParams.computeReplySizeInChunks pirParams
        (iteration * (polys * crypto.publicParams.absorptionBytesize)) =
          some (iteration * polys) := by
    intro iteration iteration_lt
    have offset_lt := lt_of_lt_ceilDiv read_pos iteration_lt
    have chunks_eq : iteration * (polys * crypto.publicParams.absorptionBytesize) ⌈/⌉
        crypto.publicParams.absorptionBytesize = iteration * polys := by
      rw [← Nat.mul_assoc, Nat.mul_comm]
      exact smul_ceilDiv absorption_pos (iteration * polys)
    rw [computeReplySizeInChunks_eq bounds alpha_eq d_eq, chunks_eq, if_pos]
    rw [← chunks_eq]
    exact ((gc_mul_ceilDiv absorption_pos).monotone_l offset_lt.le).trans_lt few
  rcases exists_fillLoop (fun iteration iteration_lt => ⟨_, index_eq iteration iteration_lt⟩)
    (fun _ => 0) with ⟨repliesIndex, fills⟩
  refine ⟨
    { nbr_of_iterations :=
        db.maxFileBytesize ⌈/⌉ (polys * crypto.publicParams.absorptionBytesize)
      repliesIndex
      currentMaxNbPolys := iterationPolys crypto.publicParams pirParams db.maxFileBytesize
        (polys * crypto.publicParams.absorptionBytesize)
      repliesAmount := db.maxFileBytesize ⌈/⌉ crypto.publicParams.absorptionBytesize }, ?_, rfl, rfl,
    ?_⟩
  · rw [genericSizes, sizes_eq, amount_eq, Option.bind_some, fills, Option.map_some]
  · intro iteration iteration_lt
    have offset_lt := lt_of_lt_ceilDiv read_pos iteration_lt
    refine ⟨?_, ?_⟩
    · exact Option.some.inj ((exists_of_fillLoop fills iteration iteration_lt).symm.trans
        (index_eq iteration iteration_lt))
    · have part_few : crypto.publicParams.plaintexts
          (polys * crypto.publicParams.absorptionBytesize * pirParams.alpha) 0 < 2 ^ 32 := by
        rw [sizes_eq] at several
        have part_lt := lt_of_lt_ceilDiv read_pos several
        rw [alpha_eq, Nat.mul_one, PublicParameters.plaintexts]
        exact ((gc_mul_ceilDiv absorption_pos).monotone_l (by omega)).trans_lt few
      change iterationPolys crypto.publicParams pirParams db.maxFileBytesize
        (polys * crypto.publicParams.absorptionBytesize) iteration = _
      rw [iterationPolys,
        LatticesBasedCryptosystem.importedPolys_eq_plaintexts rfl bounds part_few, alpha_eq,
        Nat.mul_one, PublicParameters.plaintexts, PublicParameters.fileByteSize,
        wordSub_eq_sub offset_lt.le (by omega)]

/-- The iterations of a database store the replies of consecutive plaintexts. -/
theorem consecutive_of_several (bounds : crypto.publicParams.SizeBounds)
    (several : 1 < (readSizes crypto pirParams totalSystemMemory db).1)
    (few : db.maxFileBytesize ⌈/⌉ crypto.publicParams.absorptionBytesize < 2 ^ 32)
    {replies : ℕ → Cipher}
    (replies_eq : ∀ k < db.maxFileBytesize ⌈/⌉ crypto.publicParams.absorptionBytesize,
      chunkReply crypto pirParams db deserialize padding queries k = some (replies k)) :
    ∃ sizes, genericSizes crypto pirParams totalSystemMemory db = some sizes ∧
      sizes.repliesAmount = db.maxFileBytesize ⌈/⌉ crypto.publicParams.absorptionBytesize ∧
      1 < sizes.nbr_of_iterations ∧
      ReplyThreads.Consecutive sizes
        (iterationReply crypto pirParams totalSystemMemory db deserialize padding queries)
        replies := by
  have absorption_pos := bounds.absorption_pos
  have small : db.maxFileBytesize < 2 ^ 53 :=
    (@PublicParameters.SizeBounds.bytes_lt_of_range _ bounds _ 0 few).trans (by decide)
  rcases readSizes_eq bounds small several with ⟨polys, polys_pos, read_eq⟩
  have read_pos := Nat.mul_pos polys_pos absorption_pos
  rcases genericSizes_eq bounds several few polys_pos read_eq with
    ⟨sizes, sizes_eq, iterations_eq, amount_eq, each⟩
  have offset_lt : ∀ iteration < sizes.nbr_of_iterations,
      iteration * (polys * crypto.publicParams.absorptionBytesize) < db.maxFileBytesize := by
    intro iteration inRange
    rw [iterations_eq] at inRange
    exact lt_of_lt_ceilDiv read_pos inRange
  have split_eq : ∀ iteration < sizes.nbr_of_iterations, iteration * polys +
      (db.maxFileBytesize - iteration * (polys * crypto.publicParams.absorptionBytesize)) ⌈/⌉
        crypto.publicParams.absorptionBytesize =
          db.maxFileBytesize ⌈/⌉ crypto.publicParams.absorptionBytesize := by
    intro iteration inRange
    have le := (offset_lt iteration inRange).le
    rw [← Nat.mul_assoc] at le ⊢
    exact (ceilDiv_add_mul absorption_pos le).symm
  refine ⟨sizes, sizes_eq, amount_eq, ?_, ?_, ?_, ?_, ?_⟩
  · rw [read_eq] at several
    rw [iterations_eq]
    exact several
  · have inRange : 0 < sizes.nbr_of_iterations := by
      rw [read_eq] at several
      rw [iterations_eq]
      exact Nat.zero_lt_of_lt several
    rw [ReplyThreads.place_eq inRange, (each 0 inRange).1, Nat.zero_mul]
  · intro iteration inRange
    rcases each iteration inRange with ⟨index_eq, polys_eq⟩
    rw [ReplyThreads.place_eq inRange, index_eq, polys_eq, ReplyThreads.place]
    split
    next again =>
      have next_lt := offset_lt (iteration + 1) again
      rw [Nat.succ_mul] at next_lt
      rw [(each (iteration + 1) again).1, Nat.min_eq_left (by omega), Nat.succ_mul, Nat.mul_comm polys]
      congr 1
      exact (smul_ceilDiv absorption_pos polys).symm
    next last =>
      have covered : db.maxFileBytesize ≤
          (iteration + 1) * (polys * crypto.publicParams.absorptionBytesize) := by
        rw [Nat.mul_comm, ← ceilDiv_le_iff_le_mul read_pos, ← iterations_eq]
        exact not_lt.mp last
      rw [Nat.succ_mul] at covered
      rw [Nat.min_eq_right (by omega), split_eq iteration inRange, amount_eq]
  · intro iteration inRange
    have before := offset_lt iteration inRange
    rw [(each iteration inRange).2]
    exact ceilDiv_pos absorption_pos (lt_min read_pos (by omega))
  · intro iteration inRange current_poly poly_lt
    rcases each iteration inRange with ⟨index_eq, polys_eq⟩
    have before := offset_lt iteration inRange
    rw [polys_eq] at poly_lt
    have poly_lt_polys : current_poly < polys := by
      refine poly_lt.trans_le ?_
      rw [ceilDiv_le_iff_le_mul absorption_pos, Nat.mul_comm]
      exact Nat.min_le_left _ _
    have whole : iteration * polys + current_poly <
        db.maxFileBytesize ⌈/⌉ crypto.publicParams.absorptionBytesize := by
      rw [← split_eq iteration inRange]
      exact Nat.add_lt_add_left (poly_lt.trans_le
        ((gc_mul_ceilDiv absorption_pos).monotone_l (Nat.min_le_right _ _))) _
    rw [index_eq, ← replies_eq _ whole, iterationReply, chunkReply, read_eq]
    congr 1
    funext element
    exact plaintextBytes_eq element small before.le poly_lt_polys

theorem repliesAmount_of_genericSizes {sizes : GenericSizes}
    (sizes_eq : genericSizes crypto pirParams totalSystemMemory db = some sizes) :
    crypto.publicParams.computeReplySizeInChunks pirParams db.maxFileBytesize =
      some sizes.repliesAmount := by
  rcases Option.bind_eq_some_iff.mp sizes_eq with ⟨amount, amount_eq, rest⟩
  rcases Option.map_eq_some_iff.mp rest with ⟨repliesIndex, -, rfl⟩
  exact amount_eq

theorem exists_chunkReply (ends : pirParams.n 0 ≤ 4294967288) (k : ℕ) :
    ∃ result, chunkReply crypto pirParams db deserialize padding queries k = some result :=
  LatticesBasedCryptosystem.exists_absorb ends

/--
The replies of a database that takes several iterations survive exactly the runs in which
`freeResult` only finds null pointers, if their number is an `unsigned int` and the rounds
over the queries end.
-/
theorem repliesSurvive_iff {poly : PolyShape} {absPerCoordinateBitsize : ℕ}
    (shape : crypto.publicParams.HasSizes poly absPerCoordinateBitsize)
    (several : 1 < (readSizes crypto pirParams totalSystemMemory db).1)
    (schedule : List ReplyThread) :
    RepliesSurvive crypto pirParams totalSystemMemory db deserialize padding queries schedule ↔
      db.maxFileBytesize ⌈/⌉ crypto.publicParams.absorptionBytesize < 2 ^ 32 ∧
      pirParams.n 0 ≤ 4294967288 ∧
      ∃ sizes, genericSizes crypto pirParams totalSystemMemory db = some sizes ∧
        ReplyThreads.WaitsForUploader sizes
          (iterationReply crypto pirParams totalSystemMemory db deserialize padding queries)
          schedule := by
  have bounds := shape.bounds
  have absorption_pos := bounds.absorption_pos
  rcases single_of_several several with ⟨alpha_eq, d_eq⟩
  have announced := computeReplySizeInChunks_eq bounds alpha_eq d_eq
    db.maxFileBytesize
  constructor
  · rintro ⟨sizes, replies, sizes_eq, replies_eq, survives⟩
    have amount := repliesAmount_of_genericSizes sizes_eq
    rw [announced] at amount
    split at amount
    next few =>
      rw [Option.some.injEq] at amount
      rw [← amount] at replies_eq
      rcases consecutive_of_several bounds several few replies_eq with
        ⟨same, same_eq, -, -, consecutive⟩
      obtain rfl : same = sizes := Option.some.inj (same_eq.symm.trans sizes_eq)
      refine ⟨few, ?_, same, same_eq, (ReplyThreads.survive_iff consecutive schedule).mp survives⟩
      by_contra endless
      have first := replies_eq 0 (ceilDiv_pos absorption_pos db.maxFileBytesize_pos)
      rw [chunkReply, polyReply, LatticesBasedCryptosystem.absorb_eq_none (not_le.mp endless)]
        at first
      contradiction
    next => contradiction
  · rintro ⟨few, ends, sizes, sizes_eq, waits⟩
    choose replies replies_eq using
      fun k => @exists_chunkReply _ _ crypto pirParams db deserialize padding queries ends k
    rcases consecutive_of_several bounds several few fun k _ => replies_eq k with
      ⟨same, same_eq, -, -, consecutive⟩
    obtain rfl : same = sizes := Option.some.inj (same_eq.symm.trans sizes_eq)
    exact ⟨same, replies, same_eq, fun k _ => replies_eq k,
      (ReplyThreads.survive_iff consecutive schedule).mpr waits⟩

/-- The generator waits for a second thread that keeps up, whatever the database. -/
theorem waits_keepingUp {poly : PolyShape} {absPerCoordinateBitsize : ℕ}
    (shape : crypto.publicParams.HasSizes poly absPerCoordinateBitsize)
    (several : 1 < (readSizes crypto pirParams totalSystemMemory db).1)
    (few : db.maxFileBytesize ⌈/⌉ crypto.publicParams.absorptionBytesize < 2 ^ 32)
    (ends : pirParams.n 0 ≤ 4294967288) {sizes : GenericSizes}
    (sizes_eq : genericSizes crypto pirParams totalSystemMemory db = some sizes) (rounds : ℕ) :
    ReplyThreads.WaitsForUploader sizes
      (iterationReply crypto pirParams totalSystemMemory db deserialize padding queries)
      (ReplyThreads.keepingUp rounds) := by
  choose replies replies_eq using
    fun k => @exists_chunkReply _ _ crypto pirParams db deserialize padding queries ends k
  rcases consecutive_of_several shape.bounds several few fun k _ => replies_eq k with
    ⟨same, same_eq, -, -, consecutive⟩
  obtain rfl : same = sizes := Option.some.inj (same_eq.symm.trans sizes_eq)
  exact (ReplyThreads.waits_keepingUp consecutive rounds).1

/-- If nothing is sent before the generator has returned, replies are lost, whatever the database. -/
theorem not_repliesSurvive_of_alone {poly : PolyShape} {absPerCoordinateBitsize : ℕ}
    (shape : crypto.publicParams.HasSizes poly absPerCoordinateBitsize)
    (several : 1 < (readSizes crypto pirParams totalSystemMemory db).1)
    {sizes : GenericSizes} (sizes_eq : genericSizes crypto pirParams totalSystemMemory db = some sizes) :
    ¬RepliesSurvive crypto pirParams totalSystemMemory db deserialize padding queries
      (List.replicate (ReplyThreads.generatorSteps sizes) .generator) := by
  rintro ⟨same, replies, same_eq, replies_eq, survives⟩
  obtain rfl : same = sizes := Option.some.inj (same_eq.symm.trans sizes_eq)
  rcases single_of_several several with ⟨alpha_eq, d_eq⟩
  have amount := repliesAmount_of_genericSizes same_eq
  rw [computeReplySizeInChunks_eq shape.bounds alpha_eq d_eq] at amount
  split at amount
  next few =>
    rw [Option.some.injEq] at amount
    rw [← amount] at replies_eq
    rcases consecutive_of_several shape.bounds several few replies_eq with
      ⟨again, again_eq, -, many, consecutive⟩
    obtain rfl : again = same := Option.some.inj (again_eq.symm.trans same_eq)
    exact ReplyThreads.not_survive_of_alone consecutive many (by simp [List.count_replicate])
      (by rw [List.count_replicate_self]) survives
  next => contradiction

/-- A file of three halves of a gibibyte. -/
def largeFile : DBStreams := ⟨1610612736, 1, fun _ _ => 0, by decide, Nat.one_pos⟩

/-- Of a memory of eight gibibytes, an eighth is read at once, in whole plaintexts. -/
theorem largeFile_readSizes :
    readSizes LatticesBasedCryptosystem.sized singleElement (2 ^ 33) largeFile =
      (1610612736 ⌈/⌉ (419430 * LatticesBasedCryptosystem.sized.publicParams.absorptionBytesize),
        419430 * LatticesBasedCryptosystem.sized.publicParams.absorptionBytesize) := by
  have ceil_eq : ⌈toDouble (toDouble (1610612736 : ℕ) / toDouble (1073740800 : ℕ))⌉₊ =
      1610612736 ⌈/⌉ 1073740800 :=
    natCeil_roundTo_quotient (by decide) (by decide) (by decide)
  have readable_eq : readableSize LatticesBasedCryptosystem.sized.publicParams (2 ^ 33) 1610612736
      1 = 1073740800 := by
    decide
  rw [readSizes, iterations, if_neg (by decide)]
  change (⌈toDouble (toDouble (1610612736 : ℕ) / toDouble (readableSize
    LatticesBasedCryptosystem.sized.publicParams (2 ^ 33) 1610612736 1 : ℕ))⌉₊, readableSize
      LatticesBasedCryptosystem.sized.publicParams (2 ^ 33) 1610612736 1) = _
  rw [readable_eq, ceil_eq]
  rfl

theorem largeFile_sizes :
    1 < (readSizes LatticesBasedCryptosystem.sized singleElement (2 ^ 33) largeFile).1 ∧
      ∃ sizes, genericSizes LatticesBasedCryptosystem.sized singleElement (2 ^ 33) largeFile =
        some sizes ∧ ReplyThreads.generatorSteps sizes = 2516592 := by
  have several : 1 < (readSizes LatticesBasedCryptosystem.sized singleElement (2 ^ 33)
      largeFile).1 := by
    rw [largeFile_readSizes]
    decide
  rcases genericSizes_eq LatticesBasedCryptosystem.sized_hasSizes.bounds several
    (by decide) (by decide) largeFile_readSizes with
    ⟨sizes, sizes_eq, iterations_eq, amount_eq, -⟩
  refine ⟨several, sizes, sizes_eq, ?_⟩
  rw [ReplyThreads.generatorSteps, iterations_eq, amount_eq]
  rfl

/-- The second thread takes all replies of a run in which the generator returns. -/
theorem repliesSurvive_iff_keepingUp :
    RepliesSurvive LatticesBasedCryptosystem.sized singleElement (2 ^ 33) largeFile (fun _ => ()) ()
        (fun _ => ()) (ReplyThreads.keepingUp 2516592) ∧
      ∃ sizes, genericSizes LatticesBasedCryptosystem.sized singleElement (2 ^ 33) largeFile =
        some sizes ∧ ReplyThreads.generatorSteps sizes ≤
          (ReplyThreads.keepingUp 2516592).count .generator := by
  rcases largeFile_sizes with ⟨several, sizes, sizes_eq, steps_eq⟩
  have waits := @waits_keepingUp _ _ _ _ _ _ (fun _ => ()) () (fun _ => ()) _ _
    LatticesBasedCryptosystem.sized_hasSizes several (by decide) (by decide) _ sizes_eq 2516592
  refine ⟨?_, sizes, sizes_eq, ?_⟩
  · exact (repliesSurvive_iff LatticesBasedCryptosystem.sized_hasSizes several _).mpr
      ⟨by decide, by decide, sizes, sizes_eq, waits⟩
  · rw [ReplyThreads.count_keepingUp, steps_eq]

/-- Without the second thread, the replies of the first iteration are freed in the second. -/
theorem not_repliesSurvive_largeFile :
    ¬RepliesSurvive LatticesBasedCryptosystem.sized singleElement (2 ^ 33) largeFile (fun _ => ())
      () (fun _ => ()) (List.replicate 2516592 .generator) := by
  rcases largeFile_sizes with ⟨several, sizes, sizes_eq, steps_eq⟩
  have lost := @not_repliesSurvive_of_alone _ _ _ _ _ _ (fun _ => ()) () (fun _ => ()) _ _
    LatticesBasedCryptosystem.sized_hasSizes several sizes sizes_eq
  rw [steps_eq] at lost
  exact lost

end Iterations

end PIRReplyGenerator

end Xpir
