import Mathlib.Algebra.BigOperators.Intervals
import Xpir.NFLlib.Arithmetic
import Xpir.NFLlib.Bitsplitter

/-!
# Import of queries

This file models how a reply generator stores the elements of a query: `pushQuery`,
`freeQueries` and `setPirParams`. The elements come one after the other, and two indices
say where the next one belongs. Each element is stored together with the quotients that
Shoup's multiplication uses.

A call that reaches outside a buffer has no result. There are three ways to do so. The
buffer of the quotients has the size of a ciphertext as the public parameters give it,
which is too small from 16 moduli on. The position is passed as an `int`. And the
generator holds its parameters by reference, so that they may have changed already when
`setPirParams` releases the buffers of the old ones.
-/

namespace Xpir

open Finset

/-- What the import of queries reads of the parameters. -/
structure QueryParameters where
  d : ℕ
  n : ℕ → ℕ

namespace QueryParameters

variable (params : QueryParameters)

/-- The number of query elements of the dimensions before a given one. -/
def before (dim : ℕ) : ℕ := ∑ i ∈ range dim, params.n i

/-- The number of elements of a query. -/
def total : ℕ := params.before params.d

@[simp]
theorem before_zero : params.before 0 = 0 := rfl

theorem before_succ (dim : ℕ) : params.before (dim + 1) = params.before dim + params.n dim :=
  sum_range_succ _ _

theorem before_mono {dim other : ℕ} (le : dim ≤ other) : params.before dim ≤ params.before other :=
  sum_le_sum_of_subset (range_subset_range.mpr le)

theorem before_add_lt {dim other nbr : ℕ} (lt : dim < other) (nbr_lt : nbr < params.n dim) :
    params.before dim + nbr < params.before other := by
  have le := params.before_mono (Nat.succ_le_of_lt lt)
  rw [before_succ] at le
  omega

/-- Different places are different positions in a query. -/
theorem before_add_inj {dim other nbr otherNbr : ℕ} (nbr_lt : nbr < params.n dim)
    (other_lt : otherNbr < params.n other)
    (same : params.before dim + nbr = params.before other + otherNbr) :
    dim = other ∧ nbr = otherNbr := by
  rcases lt_trichotomy dim other with lt | rfl | gt
  · have := params.before_add_lt lt nbr_lt
    omega
  · exact ⟨rfl, by omega⟩
  · have := params.before_add_lt gt other_lt
    omega

end QueryParameters

/-- What the import of queries reads of the cryptosystem. -/
structure QueryCrypto where
  polyDegree : ℕ
  nbModuli : ℕ
  moduli : ℕ → ℕ
  ciphertextBitsize : ℕ
  polyDegree_pos : 0 < polyDegree

/-- The cryptosystem with the moduli of the library. -/
def PolyShape.queryCrypto (poly : PolyShape) : QueryCrypto where
  polyDegree := poly.polyDegree
  nbModuli := poly.nbModuli
  moduli := PolyShape.moduli
  ciphertextBitsize := poly.getCiphertextBitsize
  polyDegree_pos := poly.polyDegree_pos

namespace QueryCrypto

variable (crypto : QueryCrypto)

/-- The words of one half of a ciphertext. -/
def halfWords : ℕ := crypto.nbModuli * crypto.polyDegree

/-- The size of a query element, in bytes. -/
def querySize : ℕ := crypto.ciphertextBitsize / 8

/-- A ciphertext takes no more bytes than the public parameters say. -/
def Fits : Prop := 2 * crypto.halfWords * 8 ≤ crypto.querySize

instance : Decidable crypto.Fits := inferInstanceAs (Decidable (_ ≤ _))

/-- The words of a ciphertext, in which `b` follows `a`. -/
structure RawQuery where
  words : ℕ → ℕ
  reduced : ∀ cm < crypto.nbModuli, ∀ i < crypto.polyDegree,
    words (cm * crypto.polyDegree + i) < crypto.moduli cm ∧
      words (crypto.halfWords + (cm * crypto.polyDegree + i)) < crypto.moduli cm

end QueryCrypto

/-- A query element, in two halves. -/
structure LweQuery where
  a : ℕ → ℕ
  b : ℕ → ℕ

/-- The two arrays of query elements of each dimension, with the sizes of their allocation. -/
structure QueriesBuffer where
  allocated : QueryParameters
  query : ℕ → ℕ → Option LweQuery
  shoup : ℕ → ℕ → Option LweQuery

namespace QueriesBuffer

variable (buffer : QueriesBuffer) (dim nbr : ℕ) (query shoup : LweQuery)

def store : QueriesBuffer :=
  { buffer with
    query := Function.update buffer.query dim
      (Function.update (buffer.query dim) nbr (some query))
    shoup := Function.update buffer.shoup dim
      (Function.update (buffer.shoup dim) nbr (some shoup)) }

@[simp]
theorem store_allocated : (buffer.store dim nbr query shoup).allocated = buffer.allocated := rfl

theorem store_same :
    (buffer.store dim nbr query shoup).query dim nbr = some query ∧
      (buffer.store dim nbr query shoup).shoup dim nbr = some shoup := by
  simp [store]

theorem store_other {otherDim otherNbr : ℕ} (other : ¬(otherDim = dim ∧ otherNbr = nbr)) :
    (buffer.store dim nbr query shoup).query otherDim otherNbr = buffer.query otherDim otherNbr ∧
      (buffer.store dim nbr query shoup).shoup otherDim otherNbr =
        buffer.shoup otherDim otherNbr := by
  by_cases dim_eq : otherDim = dim
  · subst dim_eq
    have nbr_ne : otherNbr ≠ nbr := fun eq => other ⟨rfl, eq⟩
    simp [store, Function.update_of_ne nbr_ne]
  · simp [store, Function.update_of_ne dim_eq]

end QueriesBuffer

structure QueryImport where
  pirParam : QueryParameters
  queriesBuf : Option QueriesBuffer
  currentQueryIndex : ℕ
  currentDimIndex : ℕ

namespace QueryImport

section Model

variable (crypto : QueryCrypto) (generator : QueryImport)

/-- The quotients of the words of one half. -/
def shoupWords (words : ℕ → ℕ) : ℕ → ℕ := fun word =>
  NFLlib.shoupQuotient (words word) (crypto.moduli (word / crypto.polyDegree))

/-- `b` is set to the second half of the ciphertext. -/
def pointers (raw : crypto.RawQuery) : LweQuery where
  a := raw.words
  b := fun word => raw.words (crypto.halfWords + word)

def quotients (raw : crypto.RawQuery) : LweQuery where
  a := shoupWords crypto (pointers crypto raw).a
  b := shoupWords crypto (pointers crypto raw).b

/-- `pushQuery` to a given place, for an `int` index in the dimension. -/
def pushQueryAt (raw : crypto.RawQuery) (dim nbr : ℕ) : Option QueryImport :=
  generator.queriesBuf.bind fun buffer =>
    if crypto.Fits ∧ dim < buffer.allocated.d ∧ nbr < 2 ^ 31 ∧ nbr < buffer.allocated.n dim then
      some { generator with
        queriesBuf := some (buffer.store dim nbr (pointers crypto raw) (quotients crypto raw)) }
    else none

/-- Both indices advance, without a look at the number of dimensions. -/
def advance : QueryImport :=
  if generator.pirParam.n generator.currentDimIndex ≤ generator.currentQueryIndex + 1 then
    { generator with
      currentQueryIndex := 0
      currentDimIndex := generator.currentDimIndex + 1 }
  else { generator with currentQueryIndex := generator.currentQueryIndex + 1 }

def pushQuery (raw : crypto.RawQuery) : Option QueryImport :=
  (generator.pushQueryAt crypto raw generator.currentDimIndex generator.currentQueryIndex).map
    advance

/-- No element is read outside the buffer that has been allocated. -/
def ReadsInside (params allocated : QueryParameters) : Prop :=
  ∀ i < params.d, params.n i = 0 ∨ i < allocated.d ∧ params.n i ≤ allocated.n i

instance (params allocated : QueryParameters) : Decidable (ReadsInside params allocated) :=
  inferInstanceAs (Decidable (∀ _ < _, _))

/-- Remove the elements of the current dimensions. -/
def clear (params : QueryParameters) (cell : ℕ → ℕ → Option LweQuery) :
    ℕ → ℕ → Option LweQuery :=
  fun dim nbr => if dim < params.d ∧ nbr < params.n dim then none else cell dim nbr

def freeQueries : Option QueryImport :=
  match generator.queriesBuf with
  | none => some { generator with currentQueryIndex := 0, currentDimIndex := 0 }
  | some buffer =>
      if ReadsInside generator.pirParam buffer.allocated then
        some { generator with
          queriesBuf := some { buffer with
            query := clear generator.pirParam buffer.query
            shoup := clear generator.pirParam buffer.shoup }
          currentQueryIndex := 0
          currentDimIndex := 0 }
      else none

def freeQueriesBuffer : Option QueryImport :=
  match generator.queriesBuf with
  | none => some generator
  | some buffer =>
      if generator.pirParam.d ≤ buffer.allocated.d then some { generator with queriesBuf := none }
      else none

def initQueriesBuffer : QueryImport :=
  { generator with
    queriesBuf := some
      { allocated := generator.pirParam, query := fun _ _ => none, shoup := fun _ _ => none } }

/--
`setPirParams`. If the argument is the object that the generator holds by reference, that
object has the new values from the start.
-/
def setPirParams (own : Bool) (params : QueryParameters) : Option QueryImport :=
  let generator := if own then { generator with pirParam := params } else generator
  (generator.freeQueries.bind freeQueriesBuffer).map fun generator =>
    { generator with pirParam := params }.initQueriesBuffer

/-- The constructor of the library sets the parameters that the generator refers to. -/
def construct (params : QueryParameters) : Option QueryImport :=
  setPirParams
    { pirParam := params, queriesBuf := none, currentQueryIndex := 0, currentDimIndex := 0 }
    true params

inductive Call
  | pushQuery (raw : crypto.RawQuery)
  | freeQueries
  | setPirParams (own : Bool) (params : QueryParameters)

def step : Call crypto → Option QueryImport
  | .pushQuery raw => generator.pushQuery crypto raw
  | .freeQueries => generator.freeQueries
  | .setPirParams own params => generator.setPirParams own params

/-- A generator made for some parameters, after the given calls. -/
def run (params : QueryParameters) (calls : List (Call crypto)) : Option QueryImport :=
  calls.foldl (fun generator call => generator.bind (step crypto · call)) (construct params)

def roundStep (pushed : List crypto.RawQuery) : Call crypto → List crypto.RawQuery
  | .pushQuery raw => pushed ++ [raw]
  | .freeQueries => []
  | .setPirParams _ _ => []

/-- The elements pushed in the current round. -/
def round (calls : List (Call crypto)) : List crypto.RawQuery := calls.foldl (roundStep crypto) []

/-- The pair of a ciphertext and its quotients, stored for a query element. -/
structure Stores (raw : crypto.RawQuery) (query shoup : LweQuery) : Prop where
  a : ∀ cm < crypto.nbModuli, ∀ i < crypto.polyDegree,
    query.a (cm * crypto.polyDegree + i) = raw.words (cm * crypto.polyDegree + i) ∧
      shoup.a (cm * crypto.polyDegree + i) =
        raw.words (cm * crypto.polyDegree + i) * 2 ^ 64 / crypto.moduli cm
  b : ∀ cm < crypto.nbModuli, ∀ i < crypto.polyDegree,
    query.b (cm * crypto.polyDegree + i) =
        raw.words (crypto.halfWords + (cm * crypto.polyDegree + i)) ∧
      shoup.b (cm * crypto.polyDegree + i) =
        raw.words (crypto.halfWords + (cm * crypto.polyDegree + i)) * 2 ^ 64 / crypto.moduli cm

/--
The slots of the pushed elements hold them, in dimension-major order, all other slots
are empty, and the indices are those of the next slot.
-/
structure Holds (pushed : List crypto.RawQuery) : Prop where
  slots : ∃ buffer, generator.queriesBuf = some buffer ∧ buffer.allocated = generator.pirParam ∧
    ∀ dim < generator.pirParam.d, ∀ nbr < generator.pirParam.n dim,
      (∀ raw, pushed[generator.pirParam.before dim + nbr]? = some raw →
        ∃ query shoup, buffer.query dim nbr = some query ∧ buffer.shoup dim nbr = some shoup ∧
          Stores crypto raw query shoup) ∧
      (pushed.length ≤ generator.pirParam.before dim + nbr →
        buffer.query dim nbr = none ∧ buffer.shoup dim nbr = none)
  dim_le : generator.currentDimIndex ≤ generator.pirParam.d
  position : generator.pirParam.before generator.currentDimIndex + generator.currentQueryIndex =
    pushed.length
  index_le : generator.currentQueryIndex ≠ 0 →
    generator.currentDimIndex < generator.pirParam.d ∧
      generator.currentQueryIndex < generator.pirParam.n generator.currentDimIndex

/-- Every call of a round has a result, after which the slots hold what has been pushed. -/
def AlwaysHolds (params : QueryParameters) (calls : List (Call crypto)) : Prop :=
  ∀ before, before <+: calls →
    ∃ generator, run crypto params before = some generator ∧
      generator.Holds crypto (round crypto before)

def parametersStep (params : QueryParameters) : Call crypto → QueryParameters
  | .setPirParams _ params => params
  | _ => params

/-- The dimensions that are set after some calls. -/
def parameters (params : QueryParameters) (calls : List (Call crypto)) : QueryParameters :=
  calls.foldl (parametersStep crypto) params

/-- No round has more elements than a query. -/
def InRounds (params : QueryParameters) (calls : List (Call crypto)) : Prop :=
  ∀ before raw after, calls = before ++ .pushQuery raw :: after →
    (round crypto before).length < (parameters crypto params before).total

/-- The state in which a call stays inside the buffers. -/
def Admissible : Call crypto → Prop
  | .pushQuery _ => crypto.Fits ∧ generator.currentQueryIndex < 2 ^ 31 ∧
      0 < generator.pirParam.n generator.currentDimIndex
  | .freeQueries => True
  | .setPirParams own params => own = true → params.d ≤ generator.pirParam.d ∧
      ∀ i < params.d, params.n i ≤ generator.pirParam.n i

end Model

section Steps

variable {crypto : QueryCrypto} {generator : QueryImport} {pushed : List crypto.RawQuery}

theorem quotients_stores (raw : crypto.RawQuery) :
    Stores crypto raw (pointers crypto raw) (quotients crypto raw) := by
  have quotient_eq : ∀ (words : ℕ → ℕ), ∀ cm, ∀ i < crypto.polyDegree,
      words (cm * crypto.polyDegree + i) < crypto.moduli cm →
        shoupWords crypto words (cm * crypto.polyDegree + i) =
          words (cm * crypto.polyDegree + i) * 2 ^ 64 / crypto.moduli cm := by
    intro words cm i i_lt reduced
    have row : (cm * crypto.polyDegree + i) / crypto.polyDegree = cm := by
      rw [mul_comm, Nat.mul_add_div crypto.polyDegree_pos, Nat.div_eq_of_lt i_lt, add_zero]
    rw [shoupWords, row, NFLlib.shoupQuotient, Nat.mod_eq_of_lt]
    apply Nat.div_lt_of_lt_mul
    exact Nat.mul_lt_mul_of_pos_right reduced (Nat.two_pow_pos 64)
  constructor
  · intro cm cm_lt i i_lt
    exact ⟨rfl, quotient_eq _ cm i i_lt (raw.reduced cm cm_lt i i_lt).1⟩
  · intro cm cm_lt i i_lt
    exact ⟨rfl, quotient_eq (pointers crypto raw).b cm i i_lt (raw.reduced cm cm_lt i i_lt).2⟩

/-- While a query is not complete, the indices are those of a dimension. -/
theorem Holds.dim_lt (holds : generator.Holds crypto pushed)
    (room : pushed.length < generator.pirParam.total) :
    generator.currentDimIndex < generator.pirParam.d := by
  refine lt_of_le_of_ne holds.dim_le fun last => ?_
  have index_zero : generator.currentQueryIndex = 0 := by
    by_contra index_ne
    have := (holds.index_le index_ne).1
    omega
  have position := holds.position
  rw [last, index_zero] at position
  rw [QueryParameters.total] at room
  omega

theorem Holds.index_lt (holds : generator.Holds crypto pushed)
    (sized : 0 < generator.pirParam.n generator.currentDimIndex) :
    generator.currentQueryIndex < generator.pirParam.n generator.currentDimIndex := by
  by_cases index_zero : generator.currentQueryIndex = 0
  · rwa [index_zero]
  · exact (holds.index_le index_zero).2

theorem advance_pirParam : generator.advance.pirParam = generator.pirParam := by
  unfold advance
  split <;> rfl

theorem advance_queriesBuf : generator.advance.queriesBuf = generator.queriesBuf := by
  unfold advance
  split <;> rfl

/-- After the last element of a dimension comes the first one of the next. -/
theorem advance_position (dim_lt : generator.currentDimIndex < generator.pirParam.d)
    (index_lt : generator.currentQueryIndex < generator.pirParam.n generator.currentDimIndex) :
    generator.advance.currentDimIndex ≤ generator.pirParam.d ∧
      generator.pirParam.before generator.advance.currentDimIndex +
          generator.advance.currentQueryIndex =
        generator.pirParam.before generator.currentDimIndex + generator.currentQueryIndex + 1 ∧
      (generator.advance.currentQueryIndex ≠ 0 →
        generator.advance.currentDimIndex < generator.pirParam.d ∧
          generator.advance.currentQueryIndex <
            generator.pirParam.n generator.advance.currentDimIndex) := by
  unfold advance
  split
  case isTrue last =>
    refine ⟨dim_lt, ?_, fun index_ne => absurd rfl index_ne⟩
    dsimp only
    rw [QueryParameters.before_succ]
    omega
  case isFalse inside =>
    refine ⟨dim_lt.le, rfl, fun _ => ⟨dim_lt, ?_⟩⟩
    exact not_le.mp inside

theorem pushQueryAt_eq {raw : crypto.RawQuery} {dim nbr : ℕ} {buffer : QueriesBuffer}
    (buffer_eq : generator.queriesBuf = some buffer)
    (inside : crypto.Fits ∧ dim < buffer.allocated.d ∧ nbr < 2 ^ 31 ∧
      nbr < buffer.allocated.n dim) :
    generator.pushQueryAt crypto raw dim nbr =
      some { generator with
        queriesBuf := some (buffer.store dim nbr (pointers crypto raw) (quotients crypto raw)) } := by
  rw [pushQueryAt, buffer_eq, Option.bind_some, if_pos inside]

/-- One step of a round: the next slot holds the element, and the others are unchanged. -/
theorem Holds.pushQuery {raw : crypto.RawQuery} (holds : generator.Holds crypto pushed)
    (room : pushed.length < generator.pirParam.total)
    (admissible : generator.Admissible crypto (.pushQuery raw)) :
    ∃ next, generator.pushQuery crypto raw = some next ∧
      next.Holds crypto (pushed ++ [raw]) ∧ next.pirParam = generator.pirParam := by
  obtain ⟨fits, index_int, sized⟩ := admissible
  have dim_lt := holds.dim_lt room
  have index_lt := holds.index_lt sized
  have position := holds.position
  obtain ⟨buffer, buffer_eq, allocated_eq, slots⟩ := holds.slots
  have inside : crypto.Fits ∧ generator.currentDimIndex < buffer.allocated.d ∧
      generator.currentQueryIndex < 2 ^ 31 ∧
      generator.currentQueryIndex < buffer.allocated.n generator.currentDimIndex := by
    rw [allocated_eq]
    exact ⟨fits, dim_lt, index_int, index_lt⟩
  have pushed_eq := @pushQueryAt_eq _ _ raw _ _ _ buffer_eq inside
  generalize stored_eq : ({ generator with queriesBuf := some (buffer.store _ _ _ _) } :
    QueryImport) = stored at pushed_eq
  refine ⟨stored.advance, by rw [QueryImport.pushQuery, pushed_eq, Option.map_some], ?_, ?_⟩
  case refine_2 => rw [advance_pirParam, ← stored_eq]
  have advanced := @advance_position stored
    (by subst stored_eq; exact dim_lt) (by subst stored_eq; exact index_lt)
  subst stored_eq
  obtain ⟨dim_le, position_eq, index_le⟩ := advanced
  refine ⟨?_, ?_, ?_, ?_⟩
  case refine_1 =>
    refine ⟨_, advance_queriesBuf, by rw [advance_pirParam]; exact allocated_eq, ?_⟩
    intro dim other_dim_lt nbr nbr_lt
    rw [advance_pirParam] at other_dim_lt nbr_lt ⊢
    by_cases same : dim = generator.currentDimIndex ∧ nbr = generator.currentQueryIndex
    case pos =>
      obtain ⟨rfl, rfl⟩ := same
      rw [position]
      refine ⟨?_, fun le => by simp at le⟩
      intro element element_eq
      obtain rfl : raw = element := by simpa using element_eq
      obtain ⟨query_eq, shoup_eq⟩ := buffer.store_same _ _ _ _
      exact ⟨_, _, query_eq, shoup_eq, quotients_stores raw⟩
    case neg =>
      have other : generator.pirParam.before dim + nbr ≠ pushed.length := by
        rw [← position]
        exact fun eq => same (QueryParameters.before_add_inj _ nbr_lt index_lt eq)
      obtain ⟨query_eq, shoup_eq⟩ := buffer.store_other _ _ (pointers crypto raw)
        (quotients crypto raw) same
      rw [query_eq, shoup_eq]
      obtain ⟨filled, empty⟩ := slots dim other_dim_lt nbr nbr_lt
      refine ⟨fun old old_eq => filled old ?_, fun le => empty ?_⟩
      · rcases lt_or_gt_of_ne other with lt | gt
        · rwa [List.getElem?_append_left lt] at old_eq
        · rw [List.getElem?_eq_none (by simpa using gt)] at old_eq
          contradiction
      · exact le_trans (by simp) le
  all_goals rw [advance_pirParam]
  · exact dim_le
  · rw [List.length_append, List.length_singleton, ← position]
    exact position_eq
  · exact index_le

/-- A push with a result is one that stays inside the buffers. -/
theorem Holds.admissible_of_pushQuery {raw : crypto.RawQuery}
    (holds : generator.Holds crypto pushed)
    (returns : (generator.pushQuery crypto raw).isSome) :
    generator.Admissible crypto (.pushQuery raw) := by
  obtain ⟨buffer, buffer_eq, allocated_eq, _⟩ := holds.slots
  rw [QueryImport.pushQuery, pushQueryAt, buffer_eq, Option.bind_some, Option.isSome_map] at returns
  split at returns
  case isTrue inside =>
    obtain ⟨fits, _, index_int, index_lt⟩ := inside
    rw [allocated_eq] at index_lt
    exact ⟨fits, index_int, by omega⟩
  case isFalse => simp at returns

theorem freeQueries_eq {buffer : QueriesBuffer} (buffer_eq : generator.queriesBuf = some buffer)
    (inside : ReadsInside generator.pirParam buffer.allocated) :
    generator.freeQueries = some { generator with
      queriesBuf := some { buffer with
        query := clear generator.pirParam buffer.query
        shoup := clear generator.pirParam buffer.shoup }
      currentQueryIndex := 0
      currentDimIndex := 0 } := by
  rw [freeQueries]
  simp only [buffer_eq, if_pos inside]

theorem clear_eq_none {params : QueryParameters} {cell : ℕ → ℕ → Option LweQuery} {dim nbr : ℕ}
    (dim_lt : dim < params.d) (nbr_lt : nbr < params.n dim) : clear params cell dim nbr = none :=
  if_pos ⟨dim_lt, nbr_lt⟩

/-- The end of a round. -/
theorem Holds.freeQueries (holds : generator.Holds crypto pushed) :
    ∃ next, generator.freeQueries = some next ∧
      next.Holds crypto [] ∧ next.pirParam = generator.pirParam := by
  obtain ⟨buffer, buffer_eq, allocated_eq, _⟩ := holds.slots
  have inside : ReadsInside generator.pirParam buffer.allocated := by
    rw [allocated_eq]
    exact fun i i_lt => Or.inr ⟨i_lt, le_rfl⟩
  refine ⟨_, freeQueries_eq buffer_eq inside, ?_, rfl⟩
  refine ⟨⟨_, rfl, allocated_eq, ?_⟩, Nat.zero_le _, rfl, fun index_ne => absurd rfl index_ne⟩
  intro dim dim_lt nbr nbr_lt
  refine ⟨fun raw raw_eq => by simp at raw_eq, fun _ => ?_⟩
  exact ⟨clear_eq_none dim_lt nbr_lt, clear_eq_none dim_lt nbr_lt⟩

/-- A new buffer is empty. -/
theorem initQueriesBuffer_holds (dim_zero : generator.currentDimIndex = 0)
    (index_zero : generator.currentQueryIndex = 0) :
    generator.initQueriesBuffer.Holds crypto [] := by
  refine ⟨⟨_, rfl, rfl, ?_⟩, ?_, ?_, fun index_ne => absurd index_zero index_ne⟩
  · intro dim _ nbr _
    exact ⟨fun raw raw_eq => by simp at raw_eq, fun _ => ⟨rfl, rfl⟩⟩
  · exact dim_zero ▸ Nat.zero_le _
  · simp [initQueriesBuffer, dim_zero, index_zero]

/-- What `setPirParams` finds in its parameter object when it releases the old buffers. -/
def releasing (generator : QueryImport) (own : Bool) (params : QueryParameters) :
    QueryParameters :=
  if own then params else generator.pirParam

/--
The release of the old buffers stays inside them exactly if the parameters it reads are
not larger than those of the allocation.
-/
theorem setPirParams_cases {buffer : QueriesBuffer} (own : Bool) (params : QueryParameters)
    (buffer_eq : generator.queriesBuf = some buffer) :
    (ReadsInside (generator.releasing own params) buffer.allocated ∧
        (generator.releasing own params).d ≤ buffer.allocated.d ∧
        ∃ next, generator.setPirParams own params = some next ∧ next.Holds crypto [] ∧
          next.pirParam = params) ∨
      (¬(ReadsInside (generator.releasing own params) buffer.allocated ∧
          (generator.releasing own params).d ≤ buffer.allocated.d) ∧
        generator.setPirParams own params = none) := by
  generalize released_eq : (if own then { generator with pirParam := params } else generator) =
    released
  have pirParam_eq : released.pirParam = generator.releasing own params := by
    rw [← released_eq, releasing]
    split <;> rfl
  have queriesBuf_eq : released.queriesBuf = some buffer := by
    rw [← released_eq, ← buffer_eq]
    split <;> rfl
  rw [← pirParam_eq]
  by_cases inside : ReadsInside released.pirParam buffer.allocated
  case neg =>
    refine Or.inr ⟨fun both => inside both.1, ?_⟩
    rw [setPirParams, released_eq, QueryImport.freeQueries]
    simp [queriesBuf_eq, if_neg inside]
  case pos =>
    by_cases dims : released.pirParam.d ≤ buffer.allocated.d
    case neg =>
      refine Or.inr ⟨fun both => dims both.2, ?_⟩
      rw [setPirParams, released_eq, freeQueries_eq queriesBuf_eq inside]
      simp [freeQueriesBuffer, dims]
    case pos =>
      have returns : generator.setPirParams own params = some (initQueriesBuffer
          { pirParam := params, queriesBuf := none, currentQueryIndex := 0,
            currentDimIndex := 0 }) := by
        rw [setPirParams, released_eq, freeQueries_eq queriesBuf_eq inside]
        simp [freeQueriesBuffer, dims]
      exact Or.inl ⟨inside, dims, _, returns, initQueriesBuffer_holds rfl rfl, rfl⟩

theorem Holds.setPirParams {own : Bool} {params : QueryParameters}
    (holds : generator.Holds crypto pushed)
    (admissible : generator.Admissible crypto (.setPirParams own params)) :
    ∃ next, generator.setPirParams own params = some next ∧ next.Holds crypto [] ∧
      next.pirParam = params := by
  obtain ⟨buffer, buffer_eq, allocated_eq, _⟩ := holds.slots
  rcases @setPirParams_cases crypto _ _ own params buffer_eq with
    ⟨_, _, result⟩ | ⟨outside, _⟩
  · exact result
  · refine absurd ?_ outside
    rw [allocated_eq]
    cases own with
    | false => exact ⟨fun i i_lt => Or.inr ⟨i_lt, le_rfl⟩, le_rfl⟩
    | true =>
        obtain ⟨d_le, n_le⟩ := admissible rfl
        exact ⟨fun i i_lt => Or.inr ⟨i_lt.trans_le d_le, n_le i i_lt⟩, d_le⟩

theorem Holds.admissible_of_setPirParams {own : Bool} {params : QueryParameters}
    (holds : generator.Holds crypto pushed)
    (returns : (generator.setPirParams own params).isSome) :
    generator.Admissible crypto (.setPirParams own params) := by
  obtain ⟨buffer, buffer_eq, allocated_eq, _⟩ := holds.slots
  rcases @setPirParams_cases crypto _ _ own params buffer_eq with
    ⟨inside, dims, _⟩ | ⟨_, result⟩
  · rintro rfl
    rw [allocated_eq] at inside dims
    refine ⟨dims, fun i i_lt => ?_⟩
    rcases inside i i_lt with size_eq | ⟨_, le⟩
    · exact size_eq.trans_le (Nat.zero_le _)
    · exact le
  · rw [result] at returns
    contradiction

end Steps

section Runs

variable {crypto : QueryCrypto} {params : QueryParameters} {calls : List (Call crypto)}

theorem construct_holds (crypto : QueryCrypto) (params : QueryParameters) :
    ∃ generator, construct params = some generator ∧ generator.Holds crypto [] ∧
      generator.pirParam = params :=
  ⟨_, rfl, initQueriesBuffer_holds rfl rfl, rfl⟩

theorem run_append (call : Call crypto) :
    run crypto params (calls ++ [call]) =
      (run crypto params calls).bind (step crypto · call) := by
  simp [run]

/-- One call that stays inside the buffers. -/
theorem Holds.step {generator : QueryImport} {pushed : List crypto.RawQuery} {call : Call crypto}
    (holds : generator.Holds crypto pushed)
    (room : ∀ raw, call = .pushQuery raw → pushed.length < generator.pirParam.total)
    (admissible : generator.Admissible crypto call) :
    ∃ next, generator.step crypto call = some next ∧
      next.Holds crypto (roundStep crypto pushed call) ∧
      next.pirParam = parametersStep crypto generator.pirParam call := by
  cases call with
  | pushQuery raw => exact holds.pushQuery (room raw rfl) admissible
  | freeQueries => exact holds.freeQueries
  | setPirParams own params => exact holds.setPirParams admissible

theorem Holds.admissible_of_step {generator : QueryImport} {pushed : List crypto.RawQuery}
    {call : Call crypto} (holds : generator.Holds crypto pushed)
    (returns : (generator.step crypto call).isSome) : generator.Admissible crypto call := by
  cases call with
  | pushQuery raw => exact holds.admissible_of_pushQuery returns
  | freeQueries => trivial
  | setPirParams own params => exact holds.admissible_of_setPirParams returns

theorem round_append (call : Call crypto) :
    round crypto (calls ++ [call]) = roundStep crypto (round crypto calls) call := by
  simp [round]

theorem parameters_append (call : Call crypto) :
    parameters crypto params (calls ++ [call]) =
      parametersStep crypto (parameters crypto params calls) call := by
  simp [parameters]

/-- Rounds whose calls all stay inside the buffers, by induction on the calls made so far. -/
theorem run_holds (rounds : InRounds crypto params calls)
    (admissible : ∀ before call after, calls = before ++ call :: after →
      ∀ generator, run crypto params before = some generator →
        generator.Admissible crypto call)
    (before : List (Call crypto)) (isPrefix : before <+: calls) :
    ∃ generator, run crypto params before = some generator ∧
      generator.Holds crypto (round crypto before) ∧
      generator.pirParam = parameters crypto params before := by
  induction before using List.reverseRecOn with
  | nil => exact construct_holds crypto params
  | append_singleton before call ih =>
      obtain ⟨after, calls_eq⟩ := isPrefix
      rw [List.append_assoc, List.singleton_append] at calls_eq
      obtain ⟨generator, run_eq, holds, pirParam_eq⟩ := ih ⟨_, calls_eq⟩
      have room : ∀ raw, call = .pushQuery raw →
          (round crypto before).length < generator.pirParam.total := by
        rintro raw rfl
        rw [pirParam_eq]
        exact rounds before raw after calls_eq.symm
      obtain ⟨next, next_eq, next_holds, next_pirParam⟩ :=
        holds.step room (admissible before call after calls_eq.symm generator run_eq)
      refine ⟨next, ?_, ?_, ?_⟩
      · rw [run_append, run_eq, Option.bind_some, next_eq]
      · rwa [round_append]
      · rw [next_pirParam, parameters_append, pirParam_eq]

/--
In all rounds, the slots hold what has been pushed, exactly if no call meets a state in
which it reaches outside the buffers.
-/
theorem alwaysHolds_iff (crypto : QueryCrypto) (params : QueryParameters)
    (calls : List (Call crypto)) (rounds : InRounds crypto params calls) :
    AlwaysHolds crypto params calls ↔
      ∀ before call after, calls = before ++ call :: after →
        ∀ generator, run crypto params before = some generator →
          generator.Admissible crypto call := by
  constructor
  · intro always before call after calls_eq generator run_eq
    obtain ⟨_, same_eq, holds⟩ := always before ⟨_, calls_eq.symm⟩
    obtain rfl := Option.some.inj (run_eq.symm.trans same_eq)
    obtain ⟨next, next_eq, _⟩ := always (before ++ [call]) ⟨after, by simp [calls_eq]⟩
    rw [run_append, run_eq, Option.bind_some] at next_eq
    exact holds.admissible_of_step (by rw [next_eq, Option.isSome_some])
  · intro admissible before isPrefix
    obtain ⟨generator, run_eq, holds, _⟩ := run_holds rounds admissible before isPrefix
    exact ⟨generator, run_eq, holds⟩

instance (crypto : QueryCrypto) (generator : QueryImport) (call : Call crypto) :
    Decidable (generator.Admissible crypto call) :=
  match call with
  | .pushQuery _ => inferInstanceAs (Decidable (_ ∧ _ ∧ _))
  | .freeQueries => .isTrue trivial
  | .setPirParams _ params => inferInstanceAs (Decidable (_ → _ ∧ ∀ i < params.d, _))

/-- The calls of a list, each with those before it. -/
theorem forall_split {Item : Type} {items : List Item} {holds : List Item → Item → Prop}
    (each : ∀ i, (inside : i < items.length) → holds (items.take i) items[i])
    (before : List Item) (item : Item) (after : List Item)
    (items_eq : items = before ++ item :: after) : holds before item := by
  subst items_eq
  have here := each before.length (by simp)
  simpa using here

/-- Two primes, polynomials with two coefficients. -/
def smallCrypto : QueryCrypto where
  polyDegree := 2
  nbModuli := 2
  moduli := fun cm => if cm = 0 then 13 else 17
  ciphertextBitsize := 512
  polyDegree_pos := Nat.two_pos

def firstQuery : smallCrypto.RawQuery where
  words := fun word => word + 3
  reduced := by decide

def secondQuery : smallCrypto.RawQuery where
  words := fun word => 12 - word
  reduced := by decide

/-- The query of a library with dimensions of the given sizes. -/
def dimensions (sizes : List ℕ) : QueryParameters where
  d := sizes.length
  n := fun dim => sizes.getD dim 0

/-- A full query, a part of one in three dimensions, and one after these have been made smaller. -/
def threeRounds : List (Call smallCrypto) :=
  [.pushQuery firstQuery, .pushQuery secondQuery, .pushQuery firstQuery, .freeQueries,
    .setPirParams false (dimensions [1, 2, 3]), .pushQuery secondQuery, .pushQuery firstQuery,
    .freeQueries, .setPirParams true (dimensions [1, 1]), .pushQuery secondQuery]

theorem threeRounds_inRounds : InRounds smallCrypto (dimensions [2, 1]) threeRounds := by
  intro before raw after calls_eq
  refine @forall_split _ _ (fun before call => ∀ raw, call = .pushQuery raw →
    (round smallCrypto before).length < (parameters smallCrypto (dimensions [2, 1]) before).total)
    ?_ before _ after calls_eq raw rfl
  intro i inside raw call_eq
  change i < 10 at inside
  interval_cases i <;> first | decide | cases call_eq

/-- Queries of two, three and two dimensions, the last with the object of the generator. -/
theorem alwaysHolds_iff_threeRounds :
    AlwaysHolds smallCrypto (dimensions [2, 1]) threeRounds := by
  refine (alwaysHolds_iff smallCrypto (dimensions [2, 1]) threeRounds threeRounds_inRounds).mpr ?_
  refine @forall_split _ _ (fun before call => ∀ generator ∈ run smallCrypto (dimensions [2, 1])
    before, generator.Admissible smallCrypto call) ?_
  decide

/-- The parameters that a generator refers to are enlarged, and set again. -/
theorem not_alwaysHolds_enlarged :
    ¬∀ crypto params calls, InRounds crypto params calls → AlwaysHolds crypto params calls := by
  intro always
  have rounds : InRounds smallCrypto (dimensions [1]) [.setPirParams true (dimensions [2])] := by
    intro before raw after calls_eq
    rcases before with _ | ⟨first, before⟩
    · simp at calls_eq
    · simp at calls_eq
  obtain ⟨generator, run_eq, _⟩ := always smallCrypto (dimensions [1]) _ rounds _ List.prefix_rfl
  have outside : run smallCrypto (dimensions [1]) [.setPirParams true (dimensions [2])] = none := by
    decide
  rw [outside] at run_eq
  contradiction

end Runs

end QueryImport

/-- The words of a ciphertext fit in its size as long as there are at most 15 primes. -/
theorem PolyShape.queryCrypto_fits_iff (poly : PolyShape) :
    poly.queryCrypto.Fits ↔ poly.nbModuli ≤ 15 := by
  have size_eq : poly.queryCrypto.querySize =
      16 * ((poly.nbModuli * NFLlib.kModulusBitsize ⌈/⌉ 64) * poly.polyDegree) := by
    change poly.getCiphertextBitsize / 8 = _
    rw [poly.getCiphertextBitsize_eq]
    omega
  have words_eq : 2 * poly.queryCrypto.halfWords * 8 = 16 * (poly.nbModuli * poly.polyDegree) := by
    rw [QueryCrypto.halfWords, PolyShape.queryCrypto]
    ring
  rw [QueryCrypto.Fits, size_eq, words_eq, Nat.mul_le_mul_left_iff (by decide),
    Nat.mul_le_mul_right_iff poly.polyDegree_pos, NFLlib.kModulusBitsize,
    Nat.ceilDiv_eq_add_pred_div]
  omega

end Xpir
