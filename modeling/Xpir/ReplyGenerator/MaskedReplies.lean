import Mathlib.Algebra.Field.ZMod
import Xpir.NFLFV.Masks
import Xpir.ReplyGenerator.ExtractedSizes
import Xpir.ReplyGenerator.Subtraction

/-!
# Masked replies

The FV cryptosystem multiplies the slots of the database with a mask when it is imported,
so that the difference of an element and a request reveals nothing but whether it is
zero. For this the request has to be multiplied with the same mask. There are three ways
to a reply that is subtracted from a request, and only `generateReplyGenericFromData`
masks the request. The other two compare a masked element with a plain request.

A database that is too large for the memory is imported in several iterations. Each of
them compares its part of the elements with the first polynomials of the request.
-/

namespace Xpir

/-- The slots of a plaintext polynomial. -/
abbrev Slots (t polyDegree : ℕ) : Type := Fin polyDegree → ZMod t

/-- An exact homomorphic scheme on slots. -/
structure SlotScheme (t polyDegree : ℕ) (Cipher Coins : Type) where
  crypto : LatticesBasedCryptosystem (Slots t polyDegree) Cipher
  mulPlain : Cipher → Slots t polyDegree → Cipher
  encrypt : Coins → ℕ → ℕ → Cipher
  dec : Cipher → Slots t polyDegree
  homomorphic : LinearlyHomomorphic crypto encrypt dec
  dec_sub : ∀ left right, dec (crypto.sub left right) = dec left - dec right
  dec_mulPlain : ∀ cipher slots, dec (mulPlain cipher slots) = slots * dec cipher

namespace NFLFV

/-- The files with the mask: the polynomial for ciphertexts, by its slots, and the slots. -/
structure MaskFiles (t polyDegree : ℕ) where
  mask : Slots t polyDegree
  mask2 : Slots t polyDegree

/-- The files that the constructor writes. -/
def maskFiles (t polyDegree : ℕ) (rnd : ℕ → ℕ) : MaskFiles t polyDegree where
  mask := fun i => (mask rnd i : ZMod t)
  mask2 := fun i => (mask rnd i : ZMod t)

variable {t polyDegree : ℕ}

/-- What `deserializeDataNFL` makes of the slots of a polynomial. -/
def deserializeDataNFL (files : MaskFiles t polyDegree) (first_ : ℕ) (slots : Slots t polyDegree) :
    Slots t polyDegree :=
  if first_ = 1 then slots * files.mask2 else slots

def mulrdm {Cipher Coins : Type} (scheme : SlotScheme t polyDegree Cipher Coins)
    (files : MaskFiles t polyDegree) (rop : Cipher) : Cipher :=
  scheme.mulPlain rop files.mask

end NFLFV

namespace PIRReplyGenerator

variable {t polyDegree : ℕ} {Cipher Coins : Type} (scheme : SlotScheme t polyDegree Cipher Coins)
  (params : PublicParameters) (pirParams : PIRParameters) (files : NFLFV.MaskFiles t polyDegree)

/-- The elements that are read, and not filled up. -/
def nbruns (nbStream : ℕ) : ℕ := ⌈toDouble (toDouble nbStream / toDouble pirParams.alpha)⌉₊

/-- The slots of the elements of a database, which is filled up with zeros. -/
def elementSlots (nbStream : ℕ) (slots : ℕ → ℕ → Slots t polyDegree) (element poly : ℕ) :
    Slots t polyDegree :=
  if element < nbruns pirParams nbStream then slots element poly else 0

def importDataNFL (nbStream : ℕ) (slots : ℕ → ℕ → Slots t polyDegree) (element poly : ℕ) :
    Slots t polyDegree :=
  if element < nbruns pirParams nbStream then
    NFLFV.deserializeDataNFL files 1 (slots element poly)
  else 0

structure ImportedDatabase (t polyDegree : ℕ) where
  imported_database : ℕ → ℕ → Slots t polyDegree
  polysPerElement : ℕ

/-- The results of the first level of `generateReply`. -/
def firstLevel (fuel : ℕ) (queriesBuf : ℕ → ℕ → Cipher) (inputData : ℕ → ℕ → Slots t polyDegree)
    (nbPolys : ℕ) (subtract : ℕ → Cipher) : Option (ℕ → ℕ → Cipher) :=
  (scheme.crypto.replyLevel pirParams fuel queriesBuf (some subtract) 0
    { inData := inputData
      currentMaxNbPolys := nbPolys
      interReply := fun _ _ _ => scheme.crypto.zero }).map fun state => state.interReply 0

/-- `generateReply(database, request)` of the library. -/
def generateReply (fuel : ℕ) (queriesBuf : ℕ → ℕ → Cipher)
    (database : ImportedDatabase t polyDegree) (request : ℕ → Cipher) :
    Option (ℕ → ℕ → Cipher) :=
  firstLevel scheme pirParams fuel queriesBuf database.imported_database database.polysPerElement
    request

def generateReplyGenericFromData (fuel : ℕ) (queriesBuf : ℕ → ℕ → Cipher)
    (database : ImportedDatabase t polyDegree) (request : ℕ → Cipher) :
    Option (ℕ → ℕ → Cipher) :=
  firstLevel scheme pirParams fuel queriesBuf database.imported_database database.polysPerElement
    fun i => if i < database.polysPerElement then NFLFV.mulrdm scheme files (request i) else request i

section Generic

/-- The files: the slots of each element that are read from an offset, in a number of bytes. -/
structure DBHandler (t polyDegree : ℕ) where
  maxFileBytesize : ℕ
  nbStream : ℕ
  slots : ℕ → ℕ → ℕ → ℕ → Slots t polyDegree
  maxFileBytesize_pos : 0 < maxFileBytesize
  nbStream_pos : 0 < nbStream

/-- The bytes of each file that can be read at once. -/
def readableSize (totalSystemMemory maxFileBytesize nbStream : ℕ) : ℕ :=
  let max_memory_per_file := totalSystemMemory / 2 / nbStream
  let max_readable_size := max_memory_per_file / 4 * 8 / params.absorptionBitsize *
    params.absorptionBitsize / 8
  min (if max_readable_size = 0 then params.absorptionBitsize else max_readable_size)
    maxFileBytesize

/-- The number of iterations, and the bytes of each file that are read in each of them. -/
def iterations (totalSystemMemory maxFileBytesize nbStream : ℕ) : ℕ × ℕ :=
  let max_readable_size := readableSize params totalSystemMemory maxFileBytesize nbStream
  let nbr_of_iterations := ⌈toDouble (toDouble maxFileBytesize / toDouble max_readable_size)⌉₊
  if (pirParams.alpha ≠ 1 ∨ 1 < pirParams.d) ∧ 1 < nbr_of_iterations then (1, maxFileBytesize)
  else (nbr_of_iterations, max_readable_size)

/-- The polynomials of each element that are imported in an iteration. -/
def iterationPolys (maxFileBytesize max_readable_size iteration : ℕ) : ℕ :=
  params.importedPolys pirParams maxFileBytesize (iteration * max_readable_size) max_readable_size

/-- The place of the replies of an iteration, and its results. -/
def genericIteration (fuel : ℕ) (queriesBuf : ℕ → ℕ → Cipher) (handler : DBHandler t polyDegree)
    (max_readable_size : ℕ) (request : ℕ → Cipher) (iteration : ℕ) :
    Option (ℕ × (ℕ → ℕ → Cipher)) :=
  (params.computeReplySizeInChunks pirParams (iteration * max_readable_size)).bind
    fun repliesIndex =>
      (firstLevel scheme pirParams fuel queriesBuf
        (importDataNFL pirParams files handler.nbStream
          (handler.slots (iteration * max_readable_size) max_readable_size))
        (iterationPolys params pirParams handler.maxFileBytesize max_readable_size iteration)
        request).map fun result => (repliesIndex, result)

/-- What each iteration has computed. With `import`, the database is imported only. -/
def generateReplyGeneric (fuel : ℕ) (queriesBuf : ℕ → ℕ → Cipher) (totalSystemMemory : ℕ)
    (handler : DBHandler t polyDegree) (importOnly : Bool) (request : ℕ → Cipher) :
    Option (ℕ → Option (ℕ × (ℕ → ℕ → Cipher))) :=
  let sizes := iterations params pirParams totalSystemMemory handler.maxFileBytesize
    handler.nbStream
  fillLoop sizes.1 (fun iteration =>
    if importOnly then some none
    else (genericIteration scheme params pirParams files fuel queriesBuf handler sizes.2 request
      iteration).map some)
    (fun _ => none)

end Generic

section Specification

/-- The results are the masked differences of the selected elements and of the request. -/
def Blinds (chosenElement : ℕ) (slots : ℕ → ℕ → Slots t polyDegree) (request : ℕ → Cipher)
    (index nbPolys : ℕ) (result : ℕ → ℕ → Cipher) : Prop :=
  ∀ j < pirParams.nbElements 1, ∀ poly < nbPolys, scheme.dec (result j poly) = files.mask2 *
    (slots (pirParams.n 0 * j + pirParams.computeCoordinates chosenElement 0) poly -
      scheme.dec (request (index + poly)))

/--
The part of the request that is subtracted is the one that should be, multiplied with the mask.
If the offset of the rounds wraps around, the ninth element is taken twice.
-/
def RequestFits (nbStream : ℕ) (expected actual : Slots t polyDegree) : Prop :=
  files.mask2 * expected = actual ∧
    (maxQuerySize < pirParams.n 0 →
      pirParams.n 0 ≤ 4294967288 ∧ (files.mask2 = 0 ∨ nbruns pirParams nbStream ≤ 8))

/-- The queries of a client, in the buffer of the server. -/
def clientQueries (coins : ℕ → ℕ → Coins) (chosenElement : ℕ) (initial : ℕ → ℕ → Cipher) :
    ℕ → ℕ → Cipher :=
  ((pirParams.generateQuery scheme.encrypt coins chosenElement).foldl pirParams.pushQuery
    ⟨initial, 0, 0⟩).queriesBuf

variable (coins : ℕ → ℕ → Coins) (request : ℕ → Cipher)

/-- The first level of `generateReply(database, request)` is right, for all databases and clients. -/
def GenerateReplyBlinds (nbStream nbPolys : ℕ) : Prop :=
  ∀ chosenElement < pirParams.nbElements 0, ∀ (slots : ℕ → ℕ → Slots t polyDegree)
    (initial : ℕ → ℕ → Cipher), ∃ fuel result,
    generateReply scheme pirParams fuel (clientQueries scheme pirParams coins chosenElement initial)
      ⟨importDataNFL pirParams files nbStream slots, nbPolys⟩ request = some result ∧
    Blinds scheme pirParams files chosenElement (elementSlots pirParams nbStream slots) request 0
      nbPolys result

/-- The same for `generateReplyGenericFromData`. -/
def GenericFromDataBlinds (nbStream nbPolys : ℕ) : Prop :=
  ∀ chosenElement < pirParams.nbElements 0, ∀ (slots : ℕ → ℕ → Slots t polyDegree)
    (initial : ℕ → ℕ → Cipher), ∃ fuel result,
    generateReplyGenericFromData scheme pirParams files fuel
      (clientQueries scheme pirParams coins chosenElement initial)
      ⟨importDataNFL pirParams files nbStream slots, nbPolys⟩ request = some result ∧
    Blinds scheme pirParams files chosenElement (elementSlots pirParams nbStream slots) request 0
      nbPolys result

/-- The same for each iteration of `generateReplyGeneric`. -/
def GenericBlinds (totalSystemMemory : ℕ) (handler : DBHandler t polyDegree) (importOnly : Bool) :
    Prop :=
  let sizes := iterations params pirParams totalSystemMemory handler.maxFileBytesize
    handler.nbStream
  ∀ chosenElement < pirParams.nbElements 0, ∀ (slots : ℕ → ℕ → ℕ → ℕ → Slots t polyDegree)
    (initial : ℕ → ℕ → Cipher), ∃ fuel replies,
    generateReplyGeneric scheme params pirParams files fuel
      (clientQueries scheme pirParams coins chosenElement initial) totalSystemMemory
      { handler with slots := slots } importOnly request = some replies ∧
    ∀ iteration < sizes.1, ∀ index result, replies iteration = some (index, result) →
      Blinds scheme pirParams files chosenElement
        (elementSlots pirParams handler.nbStream (slots (iteration * sizes.2) sizes.2)) request index
        (iterationPolys params pirParams handler.maxFileBytesize sizes.2 iteration) result

end Specification

section FirstLevel

variable {scheme pirParams files} {coins : ℕ → ℕ → Coins} {chosenElement fuel nbPolys : ℕ}
  {buffer : PIRParameters.QueriesBuffer Cipher} {inputData : ℕ → ℕ → Slots t polyDegree}
  {subtract : ℕ → Cipher}

theorem firstLevel_eq (fuel : ℕ) (queriesBuf : ℕ → ℕ → Cipher)
    (inputData : ℕ → ℕ → Slots t polyDegree) (nbPolys : ℕ) (subtract : ℕ → Cipher) :
    firstLevel scheme pirParams fuel queriesBuf inputData nbPolys subtract =
      fillLoop (pirParams.nbElements 1) (fun j => fillLoop nbPolys (fun poly =>
        scheme.crypto.absorb fuel (pirParams.n 0)
          (fun k => inputData (pirParams.n 0 * j + k) poly) (queriesBuf 0) (some (subtract poly)))
        (fun _ => scheme.crypto.zero)) (fun _ _ => scheme.crypto.zero) := by
  have first : ∀ replies : Option (ℕ → ℕ → Cipher), (replies.map fun replies =>
      if 0 < pirParams.d - 1 then
        { inData := fun element => scheme.crypto.deserializeDataNFL (replies element) nbPolys
          currentMaxNbPolys := scheme.crypto.reimportNbPolys nbPolys
          interReply := Function.update (fun _ _ _ => scheme.crypto.zero) 0 replies }
      else
        { inData := inputData
          currentMaxNbPolys := nbPolys
          interReply := Function.update (fun _ _ _ => scheme.crypto.zero) 0 replies :
            LatticesBasedCryptosystem.ReplyState (Slots t polyDegree) Cipher }).map
      (fun state => state.interReply 0) = replies := by
    intro replies
    cases replies with
    | none => rfl
    | some replies =>
        rw [Option.map_some, Option.map_some]
        split <;> simp only [Function.update_self]
  exact first _

/-- Up to 4294967288 coordinates, the first level ends. -/
theorem exists_enough (scheme : SlotScheme t polyDegree Cipher Coins) (pirParams : PIRParameters) :
    ∃ fuel, ∀ {nbPolys : ℕ}, (0 < nbPolys → pirParams.n 0 ≤ 4294967288) →
      ∀ (queriesBuf : ℕ → ℕ → Cipher) (inputData : ℕ → ℕ → Slots t polyDegree)
        (subtract : ℕ → Cipher), ∃ result,
          firstLevel scheme pirParams fuel queriesBuf inputData nbPolys subtract = some result := by
  refine ⟨2 ^ 32, ?_⟩
  intro nbPolys size_le queriesBuf inputData subtract
  rw [firstLevel_eq]
  apply exists_fillLoop
  intro j _
  apply exists_fillLoop
  intro poly poly_lt
  exact LatticesBasedCryptosystem.exists_absorb (size_le (Nat.zero_lt_of_lt poly_lt))

theorem absorb_of_firstLevel {queriesBuf : ℕ → ℕ → Cipher} {result : ℕ → ℕ → Cipher}
    (returns : firstLevel scheme pirParams fuel queriesBuf inputData nbPolys subtract =
      some result) {j poly : ℕ} (j_lt : j < pirParams.nbElements 1) (poly_lt : poly < nbPolys) :
    scheme.crypto.absorb fuel (pirParams.n 0) (fun k => inputData (pirParams.n 0 * j + k) poly)
      (queriesBuf 0) (some (subtract poly)) = some (result j poly) := by
  rw [firstLevel_eq] at returns
  exact exists_of_fillLoop (exists_of_fillLoop returns j j_lt) poly poly_lt

theorem size_le_of_firstLevel {queriesBuf : ℕ → ℕ → Cipher} {result : ℕ → ℕ → Cipher}
    (returns : firstLevel scheme pirParams fuel queriesBuf inputData nbPolys subtract =
      some result) (polys_pos : 0 < nbPolys) : pirParams.n 0 ≤ 4294967288 := by
  by_contra large
  have first := absorb_of_firstLevel returns (pirParams.nbElements_pos 1) polys_pos
  rw [LatticesBasedCryptosystem.absorb_eq_none (not_le.mp large)] at first
  exact absurd first (by simp)

/-- The results are selected elements, perhaps taken several times, minus the request. -/
theorem exists_of_firstLevel
    (received : pirParams.Received (pirParams.queryElement scheme.encrypt coins chosenElement)
      pirParams.d 0 buffer) {result : ℕ → ℕ → Cipher}
    (returns : firstLevel scheme pirParams fuel buffer.queriesBuf inputData nbPolys subtract =
      some result) {j poly : ℕ} (j_lt : j < pirParams.nbElements 1) (poly_lt : poly < nbPolys) :
    ∃ count : ℕ,
      (if pirParams.n 0 ≤ maxQuerySize then count = 1
        else (pirParams.computeCoordinates chosenElement 0 < 8 → count = 1) ∧
          (pirParams.computeCoordinates chosenElement 0 = 8 → count = 2)) ∧
      scheme.dec (result j poly) =
        count • inputData (pirParams.n 0 * j + pirParams.computeCoordinates chosenElement 0) poly -
          scheme.dec (subtract poly) := by
  have value := absorb_of_firstLevel returns j_lt poly_lt
  rw [LatticesBasedCryptosystem.absorb_congr fun k k_lt =>
    ⟨rfl, received.full 0 pirParams.d_pos k k_lt⟩] at value
  rcases Nat.lt_or_ge maxQuerySize (pirParams.n 0) with exceeds | fits
  · rcases LatticesBasedCryptosystem.exists_of_absorb exceeds value with
      ⟨indices, once, twice, result_eq⟩
    refine ⟨indices.count (pirParams.computeCoordinates chosenElement 0), ?_, ?_⟩
    · rw [if_neg (not_le.mpr exceeds)]
      refine ⟨once _, ?_⟩
      intro coordinate
      rw [coordinate]
      exact twice
    · have sum : scheme.dec (scheme.crypto.absorbList
          (fun k => inputData (pirParams.n 0 * j + k) poly)
          (pirParams.queryElement scheme.encrypt coins chosenElement 0) indices) = _ :=
        scheme.homomorphic.dec_absorbList coins chosenElement _ indices
      rw [result_eq, ← sum]
      exact scheme.dec_sub _ _
  · refine ⟨1, by rw [if_pos fits], ?_⟩
    rw [LatticesBasedCryptosystem.eq_absorbed (pirParams.n_pos 0 pirParams.d_pos) fits value,
      scheme.homomorphic.dec_absorbed_some scheme.dec_sub coins chosenElement pirParams.d_pos,
      one_smul]

end FirstLevel

section Masking

variable {scheme pirParams files} {coins : ℕ → ℕ → Coins} {nbStream index nbPolys : ℕ}
  {request subtract : ℕ → Cipher}

theorem importDataNFL_eq (nbStream : ℕ) (slots : ℕ → ℕ → Slots t polyDegree) (element poly : ℕ) :
    importDataNFL pirParams files nbStream slots element poly =
      files.mask2 * elementSlots pirParams nbStream slots element poly := by
  rw [importDataNFL, elementSlots]
  split
  next => rw [NFLFV.deserializeDataNFL, if_pos rfl, mul_comm]
  next => rw [mul_zero]

theorem blinds_of_fits
    (fits : ∀ poly < nbPolys, RequestFits pirParams files nbStream
      (scheme.dec (request (index + poly))) (scheme.dec (subtract poly))) {chosenElement fuel : ℕ}
    {buffer : PIRParameters.QueriesBuffer Cipher}
    (received : pirParams.Received (pirParams.queryElement scheme.encrypt coins chosenElement)
      pirParams.d 0 buffer) {slots : ℕ → ℕ → Slots t polyDegree} {result : ℕ → ℕ → Cipher}
    (returns : firstLevel scheme pirParams fuel buffer.queriesBuf
      (importDataNFL pirParams files nbStream slots) nbPolys subtract = some result) :
    Blinds scheme pirParams files chosenElement (elementSlots pirParams nbStream slots) request index
      nbPolys result := by
  intro j j_lt poly poly_lt
  rcases fits poly poly_lt with ⟨same, wraps⟩
  rcases exists_of_firstLevel received returns j_lt poly_lt with ⟨count, count_eq, value⟩
  rw [value, importDataNFL_eq, mul_sub, same]
  congr 1
  split at count_eq
  next small => rw [count_eq, one_smul]
  next exceeds =>
    rcases wraps (not_le.mp exceeds) with ⟨-, zero | few⟩
    · rw [zero, zero_mul, smul_zero]
    · rw [elementSlots]
      split
      next inside =>
        -- Only elements of the first block are read, and none of them twice.
        rw [count_eq.1 (by omega), one_smul]
      next => rw [mul_zero, smul_zero]

/-- Elements of zeros and ones tell whether the request fits. -/
theorem fits_of_blinds
    (blinds : ∀ chosenElement < pirParams.nbElements 0, ∀ (slots : ℕ → ℕ → Slots t polyDegree),
      ∃ fuel result, firstLevel scheme pirParams fuel
        (clientQueries scheme pirParams coins chosenElement fun _ _ => scheme.crypto.zero)
        (importDataNFL pirParams files nbStream slots) nbPolys subtract = some result ∧
      Blinds scheme pirParams files chosenElement (elementSlots pirParams nbStream slots) request
        index nbPolys result) :
    ∀ poly < nbPolys, RequestFits pirParams files nbStream (scheme.dec (request (index + poly)))
      (scheme.dec (subtract poly)) := by
  intro poly poly_lt
  have only := pirParams.nbElements_pos 1
  have zeros : ∀ chosenElement < pirParams.nbElements 0,
      files.mask2 * scheme.dec (request (index + poly)) = scheme.dec (subtract poly) := by
    intro chosenElement inside
    rcases blinds chosenElement inside (fun _ _ => 0) with ⟨fuel, result, returns, differences⟩
    have received := pirParams.received_generateQuery scheme.encrypt coins chosenElement
      (fun _ _ => scheme.crypto.zero)
    rcases exists_of_firstLevel received returns only poly_lt with ⟨count, -, value⟩
    rw [differences 0 only poly poly_lt, importDataNFL_eq, elementSlots, ite_self, mul_zero,
      smul_zero, zero_sub, zero_sub, mul_neg, neg_inj] at value
    exact value
  refine ⟨zeros 0 (pirParams.nbElements_pos 0), ?_⟩
  intro exceeds
  rcases pirParams.exists_chosenElement pirParams.d_pos
    (show 8 < pirParams.n 0 by rw [maxQuerySize] at exceeds; omega) with
    ⟨chosenElement, inside, coordinate⟩
  rcases blinds chosenElement inside (fun _ _ => 1) with ⟨fuel, result, returns, differences⟩
  refine ⟨size_le_of_firstLevel returns (Nat.zero_lt_of_lt poly_lt), ?_⟩
  rcases Nat.lt_or_ge 8 (nbruns pirParams nbStream) with many | few
  · have received := pirParams.received_generateQuery scheme.encrypt coins chosenElement
      (fun _ _ => scheme.crypto.zero)
    rcases exists_of_firstLevel received returns only poly_lt with ⟨count, count_eq, value⟩
    rw [if_neg (not_le.mpr exceeds)] at count_eq
    rw [differences 0 only poly poly_lt, importDataNFL_eq, elementSlots, coordinate, Nat.mul_zero,
      Nat.zero_add, if_pos many, mul_one, mul_sub, mul_one, zeros chosenElement inside,
      sub_left_inj, count_eq.2 coordinate, two_smul, left_eq_add] at value
    exact Or.inl value
  · exact Or.inr few

theorem size_le_of_fits {expected actual : ℕ → Slots t polyDegree}
    (fits : ∀ poly < nbPolys, RequestFits pirParams files nbStream (expected poly) (actual poly))
    (polys_pos : 0 < nbPolys) : pirParams.n 0 ≤ 4294967288 := by
  rcases Nat.lt_or_ge maxQuerySize (pirParams.n 0) with exceeds | small
  · exact ((fits 0 polys_pos).2 exceeds).1
  · exact small.trans (by decide)

theorem genericIteration_eq_some {params : PublicParameters} {fuel : ℕ}
    {queriesBuf : ℕ → ℕ → Cipher} {handler : DBHandler t polyDegree}
    {max_readable_size iteration : ℕ} {result : ℕ → ℕ → Cipher} :
    genericIteration scheme params pirParams files fuel queriesBuf handler max_readable_size request
        iteration = some (index, result) ↔
      params.computeReplySizeInChunks pirParams (iteration * max_readable_size) = some index ∧
      firstLevel scheme pirParams fuel queriesBuf
        (importDataNFL pirParams files handler.nbStream
          (handler.slots (iteration * max_readable_size) max_readable_size))
        (iterationPolys params pirParams handler.maxFileBytesize max_readable_size iteration)
        request = some result := by
  rw [genericIteration, Option.bind_eq_some_iff]
  constructor
  · rintro ⟨place, place_eq, level⟩
    rcases Option.map_eq_some_iff.mp level with ⟨found, found_eq, same⟩
    rcases Prod.mk.inj same with ⟨rfl, rfl⟩
    exact ⟨place_eq, found_eq⟩
  · rintro ⟨index_eq, level⟩
    exact ⟨index, index_eq, by rw [level, Option.map_some]⟩

/-- An iteration is right exactly if its part of the request is the one that is subtracted. -/
theorem genericBlinds_iff {params : PublicParameters} {totalSystemMemory : ℕ}
    {handler : DBHandler t polyDegree} :
    let sizes := iterations params pirParams totalSystemMemory handler.maxFileBytesize
      handler.nbStream
    GenericBlinds scheme params pirParams files coins request totalSystemMemory handler false ↔
      ∀ iteration < sizes.1, ∃ index,
        params.computeReplySizeInChunks pirParams (iteration * sizes.2) = some index ∧
        ∀ poly < iterationPolys params pirParams handler.maxFileBytesize sizes.2 iteration,
          RequestFits pirParams files handler.nbStream (scheme.dec (request (index + poly)))
            (scheme.dec (request poly)) := by
  intro sizes
  constructor
  · intro blinds iteration iteration_lt
    -- The results of the iteration, for any slots.
    have results : ∀ chosenElement < pirParams.nbElements 0,
        ∀ slots : ℕ → ℕ → Slots t polyDegree, ∃ index,
        params.computeReplySizeInChunks pirParams (iteration * sizes.2) = some index ∧
        ∃ fuel result, firstLevel scheme pirParams fuel
          (clientQueries scheme pirParams coins chosenElement fun _ _ => scheme.crypto.zero)
          (importDataNFL pirParams files handler.nbStream slots)
          (iterationPolys params pirParams handler.maxFileBytesize sizes.2 iteration) request =
            some result ∧
        Blinds scheme pirParams files chosenElement
          (elementSlots pirParams handler.nbStream slots) request index
          (iterationPolys params pirParams handler.maxFileBytesize sizes.2 iteration) result := by
      intro chosenElement inside slots
      rcases blinds chosenElement inside (fun _ _ => slots) (fun _ _ => scheme.crypto.zero) with
        ⟨fuel, replies, returns, differences⟩
      rcases Option.map_eq_some_iff.mp (exists_of_fillLoop returns iteration iteration_lt) with
        ⟨⟨index, result⟩, runs, reply_eq⟩
      rcases genericIteration_eq_some.mp runs with ⟨index_eq, level⟩
      exact ⟨index, index_eq, fuel, result, level,
        differences iteration iteration_lt index result reply_eq.symm⟩
    rcases results 0 (pirParams.nbElements_pos 0) (fun _ _ => 0) with ⟨index, index_eq, _⟩
    refine ⟨index, index_eq, ?_⟩
    apply @fits_of_blinds _ _ _ _ scheme pirParams files coins handler.nbStream index _ request
      request
    intro chosenElement inside slots
    rcases results chosenElement inside slots with ⟨place, place_eq, found⟩
    obtain rfl := Option.some.inj (index_eq.symm.trans place_eq)
    exact found
  · intro fits chosenElement inside slots initial
    have received := pirParams.received_generateQuery scheme.encrypt coins chosenElement initial
    rcases exists_enough scheme pirParams with ⟨fuel, enough⟩
    have results : ∀ iteration < sizes.1, ∃ reply,
        (if false = true then some none
          else (genericIteration scheme params pirParams files fuel
            (clientQueries scheme pirParams coins chosenElement initial)
            { handler with slots := slots } sizes.2 request iteration).map some) = some reply := by
      intro iteration iteration_lt
      rcases fits iteration iteration_lt with ⟨index, index_eq, fit⟩
      rcases enough (size_le_of_fits fit)
        (clientQueries scheme pirParams coins chosenElement initial)
        (importDataNFL pirParams files handler.nbStream
          (slots (iteration * sizes.2) sizes.2)) request with ⟨result, level⟩
      have iterates : genericIteration scheme params pirParams files fuel
          (clientQueries scheme pirParams coins chosenElement initial)
          { handler with slots := slots } sizes.2 request iteration = some (index, result) :=
        genericIteration_eq_some.mpr ⟨index_eq, level⟩
      exact ⟨some (index, result), by rw [if_neg Bool.false_ne_true, iterates, Option.map_some]⟩
    rcases exists_fillLoop results (fun _ => none) with ⟨replies, fills⟩
    refine ⟨fuel, replies, fills, ?_⟩
    intro iteration iteration_lt index result reply_eq
    have runs := exists_of_fillLoop fills iteration iteration_lt
    rw [reply_eq, if_neg Bool.false_ne_true] at runs
    rcases Option.map_eq_some_iff.mp runs with ⟨pair, iterates, pair_eq⟩
    rw [Option.some.inj pair_eq] at iterates
    rcases genericIteration_eq_some.mp iterates with ⟨place_eq, level⟩
    rcases fits iteration iteration_lt with ⟨place, index_eq, fit⟩
    obtain rfl := Option.some.inj (index_eq.symm.trans place_eq)
    exact blinds_of_fits fit received level

theorem genericBlinds_import (scheme : SlotScheme t polyDegree Cipher Coins)
    (params : PublicParameters) (pirParams : PIRParameters) (files : NFLFV.MaskFiles t polyDegree)
    (coins : ℕ → ℕ → Coins) (request : ℕ → Cipher) (totalSystemMemory : ℕ)
    (handler : DBHandler t polyDegree) :
    GenericBlinds scheme params pirParams files coins request totalSystemMemory handler true := by
  intro chosenElement _ slots initial
  have results : ∀ iteration < (iterations params pirParams totalSystemMemory
      handler.maxFileBytesize handler.nbStream).1, ∃ reply,
      (if true = true then some none
        else (genericIteration scheme params pirParams files 0
          (clientQueries scheme pirParams coins chosenElement initial)
          { handler with slots := slots } (iterations params pirParams totalSystemMemory
            handler.maxFileBytesize handler.nbStream).2 request iteration).map some) = some reply :=
    fun iteration _ => ⟨none, if_pos rfl⟩
  rcases exists_fillLoop results (fun _ => none) with ⟨replies, fills⟩
  refine ⟨0, replies, fills, ?_⟩
  intro iteration iteration_lt index result reply_eq
  have nothing := exists_of_fillLoop fills iteration iteration_lt
  rw [reply_eq] at nothing
  exact absurd nothing (by simp)

theorem generateReplyBlinds_iff :
    GenerateReplyBlinds scheme pirParams files coins request nbStream nbPolys ↔
      ∀ poly < nbPolys, RequestFits pirParams files nbStream (scheme.dec (request poly))
        (scheme.dec (request poly)) := by
  constructor
  · intro blinds poly poly_lt
    have fits := @fits_of_blinds _ _ _ _ scheme pirParams files coins nbStream 0 nbPolys request
      request (fun chosenElement inside slots => blinds chosenElement inside slots _) poly poly_lt
    rwa [Nat.zero_add] at fits
  · intro fits chosenElement inside slots initial
    rcases exists_enough scheme pirParams with ⟨fuel, enough⟩
    rcases enough (size_le_of_fits fits) (clientQueries scheme pirParams coins chosenElement initial)
      (importDataNFL pirParams files nbStream slots) request with ⟨result, returns⟩
    refine ⟨fuel, result, returns, blinds_of_fits ?_
      (pirParams.received_generateQuery scheme.encrypt coins chosenElement initial) returns⟩
    intro poly poly_lt
    rw [Nat.zero_add]
    exact fits poly poly_lt

theorem genericFromDataBlinds_of_fits (same : files.mask = files.mask2)
    (wraps : 0 < nbPolys → maxQuerySize < pirParams.n 0 →
      pirParams.n 0 ≤ 4294967288 ∧ (files.mask2 = 0 ∨ nbruns pirParams nbStream ≤ 8)) :
    GenericFromDataBlinds scheme pirParams files coins request nbStream nbPolys := by
  intro chosenElement inside slots initial
  have fits : ∀ poly < nbPolys, RequestFits pirParams files nbStream (scheme.dec (request poly))
      (scheme.dec (if poly < nbPolys then NFLFV.mulrdm scheme files (request poly)
        else request poly)) := by
    intro poly poly_lt
    rw [if_pos poly_lt, NFLFV.mulrdm, scheme.dec_mulPlain, same]
    exact ⟨rfl, wraps (Nat.zero_lt_of_lt poly_lt)⟩
  rcases exists_enough scheme pirParams with ⟨fuel, enough⟩
  rcases enough (size_le_of_fits fits) (clientQueries scheme pirParams coins chosenElement initial)
    (importDataNFL pirParams files nbStream slots) _ with ⟨result, returns⟩
  refine ⟨fuel, result, returns, blinds_of_fits ?_
    (pirParams.received_generateQuery scheme.encrypt coins chosenElement initial) returns⟩
  intro poly poly_lt
  rw [Nat.zero_add]
  exact fits poly poly_lt

/--
The three ways to a subtractive reply blind element and request alike exactly if the
slots of the request are those that the mask leaves unchanged, in each iteration those of
the polynomials that are compared, as long as the rounds of the first dimension are right.
-/
theorem blindsAlike_iff (scheme : SlotScheme t polyDegree Cipher Coins) (params : PublicParameters)
    (pirParams : PIRParameters) (rnd : ℕ → ℕ) (coins : ℕ → ℕ → Coins) (request : ℕ → Cipher)
    (nbPolys totalSystemMemory : ℕ) (handler : DBHandler t polyDegree) (importOnly : Bool) :
    let files := NFLFV.maskFiles t polyDegree rnd
    let sizes := iterations params pirParams totalSystemMemory handler.maxFileBytesize
      handler.nbStream
    (GenerateReplyBlinds scheme pirParams files coins request handler.nbStream nbPolys ∧
      GenericBlinds scheme params pirParams files coins request totalSystemMemory handler
        importOnly ∧
      GenericFromDataBlinds scheme pirParams files coins request handler.nbStream nbPolys) ↔
    (∀ poly < nbPolys, RequestFits pirParams files handler.nbStream (scheme.dec (request poly))
        (scheme.dec (request poly))) ∧
      (importOnly = true ∨ ∀ iteration < sizes.1, ∃ index,
        params.computeReplySizeInChunks pirParams (iteration * sizes.2) = some index ∧
        ∀ poly < iterationPolys params pirParams handler.maxFileBytesize sizes.2 iteration,
          RequestFits pirParams files handler.nbStream (scheme.dec (request (index + poly)))
            (scheme.dec (request poly))) := by
  intro files sizes
  have generic : GenericBlinds scheme params pirParams files coins request totalSystemMemory handler
      importOnly ↔ importOnly = true ∨ ∀ iteration < sizes.1, ∃ index,
        params.computeReplySizeInChunks pirParams (iteration * sizes.2) = some index ∧
        ∀ poly < iterationPolys params pirParams handler.maxFileBytesize sizes.2 iteration,
          RequestFits pirParams files handler.nbStream (scheme.dec (request (index + poly)))
            (scheme.dec (request poly)) := by
    cases importOnly with
    | true =>
        exact iff_of_true (genericBlinds_import scheme params pirParams files coins request
          totalSystemMemory handler) (Or.inl rfl)
    | false =>
        exact genericBlinds_iff.trans (or_iff_right Bool.false_ne_true).symm
  rw [generateReplyBlinds_iff, generic]
  constructor
  · rintro ⟨fits, parts, _⟩
    exact ⟨fits, parts⟩
  · rintro ⟨fits, parts⟩
    refine ⟨fits, parts, genericFromDataBlinds_of_fits rfl ?_⟩
    exact fun polys_pos => (fits 0 polys_pos).2

end Masking

section Example

/-- A scheme whose ciphertexts are the slots of their plaintexts. -/
def slotScheme (t polyDegree : ℕ) : SlotScheme t polyDegree (Slots t polyDegree) Unit where
  crypto :=
    { zero := 0
      mulandadd := fun rop data query => rop + query * data
      sub := fun left right => left - right
      deserializeDataNFL := fun ciphers _ poly => ciphers poly
      absorptionBitsize := 8
      ciphertextBitsize := 8 }
  mulPlain := fun cipher slots => slots * cipher
  encrypt := fun _ ui _ => ui
  dec := id
  homomorphic := by
    intro terms level
    have shifted : ∀ rop : Slots t polyDegree, terms.foldl (fun rop term =>
        rop + (term.2.2 : Slots t polyDegree) * term.1) rop =
          rop + (terms.map fun term => term.2.2 • term.1).sum := by
      induction terms with
      | nil => simp
      | cons term terms ih =>
          intro rop
          rw [List.foldl_cons, ih, List.map_cons, List.sum_cons, ← add_assoc, nsmul_eq_mul]
    exact (shifted 0).trans (zero_add _)
  dec_sub := fun _ _ => rfl
  dec_mulPlain := fun _ _ => rfl

/-- A single file of one byte. -/
def singleFile (t polyDegree : ℕ) : DBHandler t polyDegree :=
  ⟨1, 1, fun _ _ _ _ => 0, Nat.one_pos, Nat.one_pos⟩

def singleElement : PIRParameters :=
  ⟨1, 1, fun _ => 1, Nat.one_pos, Nat.one_pos, by decide, by decide⟩

theorem singleElement_nbruns : nbruns singleElement 1 = 1 := by
  have one : toDouble 1 = 1 := by exact_mod_cast roundTo_natCast (by decide : 1 < 2 ^ 53)
  simp [nbruns, singleElement, one]

/-- Only a mask of ones leaves the slots of a request unchanged. -/
theorem blindsAlike_iff_ones :
    let files := NFLFV.maskFiles 12289 1024 fun _ => 1
    GenerateReplyBlinds (slotScheme 12289 1024) singleElement files (fun _ _ => ()) (fun _ => 5) 1
        1 ∧
      GenericBlinds (slotScheme 12289 1024) LatticesBasedCryptosystem.sized.publicParams singleElement
        files (fun _ _ => ()) (fun _ => 5) (2 ^ 34) (singleFile 12289 1024) false ∧
      GenericFromDataBlinds (slotScheme 12289 1024) singleElement files (fun _ _ => ()) (fun _ => 5) 1
        1 := by
  have fits : RequestFits singleElement (NFLFV.maskFiles 12289 1024 fun _ => 1) 1 5 5 := by
    have ones : (NFLFV.maskFiles 12289 1024 fun _ => 1).mask2 = 1 := by
      funext i
      have one : NFLFV.mask (fun _ => 1) i = 1 := by
        change 1 &&& 255 = 1
        decide
      change ((NFLFV.mask (fun _ => 1) i : ℕ) : ZMod 12289) = 1
      rw [one, Nat.cast_one]
    exact ⟨by rw [ones, one_mul], fun exceeds => absurd exceeds (by decide)⟩
  refine (blindsAlike_iff (slotScheme 12289 1024)
    LatticesBasedCryptosystem.sized.publicParams singleElement (fun _ => 1) (fun _ _ => ())
    (fun _ => 5) 1 (2 ^ 34) (singleFile 12289 1024) false).mpr ⟨?_, Or.inr ?_⟩
  · exact fun poly _ => fits
  · have sizes_eq : iterations LatticesBasedCryptosystem.sized.publicParams singleElement (2 ^ 34)
        (singleFile 12289 1024).maxFileBytesize (singleFile 12289 1024).nbStream = (1, 1) := by
      have one : toDouble 1 = 1 := by exact_mod_cast roundTo_natCast (by decide : 1 < 2 ^ 53)
      simp [iterations, readableSize, singleFile, singleElement, one,
        LatticesBasedCryptosystem.sized, LatticesBasedCryptosystem.publicParams]
    rw [sizes_eq]
    intro iteration iteration_lt
    have bounds := LatticesBasedCryptosystem.sized_hasSizes.bounds
    rw [Nat.lt_one_iff.mp iteration_lt]
    exact ⟨_, bounds.computeReplySizeInChunks_eq (by decide), fun poly _ => fits⟩

/-- The mask 2 makes a difference of an element and a request that are equal. -/
theorem not_blinds_equal :
    let files := NFLFV.maskFiles 12289 1024 fun _ => 2
    ¬ ∃ fuel result, generateReply (slotScheme 12289 1024) singleElement fuel
        (clientQueries (slotScheme 12289 1024) singleElement (fun _ _ => ()) 0 fun _ _ => 0)
        ⟨importDataNFL singleElement files 1 fun _ _ => 1, 1⟩ (fun _ => 1) = some result ∧
      Blinds (slotScheme 12289 1024) singleElement files 0
        (elementSlots singleElement 1 fun _ _ => 1) (fun _ => 1) 0 1 result := by
  rintro files ⟨fuel, result, returns, differences⟩
  have received := singleElement.received_generateQuery (slotScheme 12289 1024).encrypt
    (fun _ _ => ()) 0 (fun _ _ => 0)
  have level : firstLevel (slotScheme 12289 1024) singleElement fuel _
    (importDataNFL singleElement files 1 fun _ _ => 1) 1 (fun _ => 1) = some result := returns
  rcases exists_of_firstLevel received level (show 0 < singleElement.nbElements 1 by decide)
    Nat.one_pos with ⟨count, count_eq, value⟩
  have difference := congrFun value 0
  rw [if_pos (by decide)] at count_eq
  rw [differences 0 (by decide) 0 Nat.one_pos, count_eq, one_smul, importDataNFL_eq, elementSlots,
    singleElement_nbruns, if_pos (by decide)] at difference
  exact absurd difference (by decide)

end Example

end PIRReplyGenerator

end Xpir
