import Xpir.Libpir.RoundLedger
import Xpir.ReplyGenerator.QueryImport

/-!
# Buffers of queries

`PIRParameters.pushQuery` stores the elements of a query. It looks neither at the sizes of the
buffers nor at the index, which is an `int`. The import of queries and the generator in memory
look at both, and they store pointers and quotients. As long as they have a result, they hold
the same elements at the same places.
-/

namespace Xpir

section Cells

variable {Cell Value : Type} {cell : ℕ → ℕ → Option Cell} {values : ℕ → ℕ → Value}
  (holds : Cell → Value → Prop)

/-- A cell and a value are replaced at the same place. -/
theorem holds_of_update (here : Cell) (value : Value)
    (same : ∀ dim nbr stored, cell dim nbr = some stored → holds stored (values dim nbr))
    (new : holds here value) (i j : ℕ) :
    ∀ dim nbr stored,
      Function.update cell i (Function.update (cell i) j (some here)) dim nbr = some stored →
        holds stored (Function.update values i (Function.update (values i) j value) dim nbr) := by
  intro dim nbr stored stored_eq
  by_cases dim_eq : dim = i
  · subst dim_eq
    rw [Function.update_self] at stored_eq ⊢
    by_cases nbr_eq : nbr = j
    · subst nbr_eq
      rw [Function.update_self] at stored_eq ⊢
      rw [← Option.some.inj stored_eq]
      exact new
    · rw [Function.update_of_ne nbr_eq] at stored_eq ⊢
      exact same dim nbr stored stored_eq
  · rw [Function.update_of_ne dim_eq] at stored_eq ⊢
    exact same dim nbr stored stored_eq

end Cells

section Buffer

variable {Value : Type} (pirParams : PIRParameters) (buffer : PIRParameters.QueriesBuffer Value)
  (rawQuery : Value)

theorem pushQuery_queriesBuf :
    (pirParams.pushQuery buffer rawQuery).queriesBuf =
      Function.update buffer.queriesBuf buffer.currentDimIndex
        (Function.update (buffer.queriesBuf buffer.currentDimIndex) buffer.currentQueryIndex
          rawQuery) := by
  rw [PIRParameters.pushQuery]
  split <;> rfl

theorem pushQuery_currentDimIndex :
    (pirParams.pushQuery buffer rawQuery).currentDimIndex =
      if pirParams.n buffer.currentDimIndex ≤ buffer.currentQueryIndex + 1 then
        buffer.currentDimIndex + 1
      else buffer.currentDimIndex := by
  rw [PIRParameters.pushQuery]
  split <;> rfl

theorem pushQuery_currentQueryIndex :
    (pirParams.pushQuery buffer rawQuery).currentQueryIndex =
      if pirParams.n buffer.currentDimIndex ≤ buffer.currentQueryIndex + 1 then 0
      else buffer.currentQueryIndex + 1 := by
  rw [PIRParameters.pushQuery]
  split <;> rfl

end Buffer

section Import

variable {crypto : QueryCrypto} {pirParams : PIRParameters}
  {buffer : PIRParameters.QueriesBuffer crypto.RawQuery} {generator after : QueryImport}

/-- The elements that have been imported are those of the buffer, with their quotients. -/
structure QueryImport.Mirrors (crypto : QueryCrypto) (pirParams : PIRParameters)
    (buffer : PIRParameters.QueriesBuffer crypto.RawQuery) (generator : QueryImport) : Prop where
  n_eq : generator.pirParam.n = pirParams.n
  dim_eq : generator.currentDimIndex = buffer.currentDimIndex
  nbr_eq : generator.currentQueryIndex = buffer.currentQueryIndex
  query : ∀ stored, generator.queriesBuf = some stored → ∀ dim nbr query,
    stored.query dim nbr = some query → query = pointers crypto (buffer.queriesBuf dim nbr)
  shoup : ∀ stored, generator.queriesBuf = some stored → ∀ dim nbr shoup,
    stored.shoup dim nbr = some shoup → shoup = quotients crypto (buffer.queriesBuf dim nbr)

theorem QueryImport.Mirrors.pushQuery {raw : crypto.RawQuery}
    (mirrors : generator.Mirrors crypto pirParams buffer)
    (pushes : generator.pushQuery crypto raw = some after) :
    after.Mirrors crypto pirParams (pirParams.pushQuery buffer raw) := by
  rcases Option.map_eq_some_iff.mp pushes with ⟨next, places, rfl⟩
  rcases Option.bind_eq_some_iff.mp places with ⟨stored, stored_eq, inside⟩
  split at inside
  next =>
    obtain rfl := Option.some.inj inside
    have dim_eq := mirrors.dim_eq
    have nbr_eq := mirrors.nbr_eq
    constructor
    · rw [advance_pirParam]
      exact mirrors.n_eq
    · rw [pushQuery_currentDimIndex, ← dim_eq, ← nbr_eq, ← mirrors.n_eq, advance]
      split <;> rfl
    · rw [pushQuery_currentQueryIndex, ← dim_eq, ← nbr_eq, ← mirrors.n_eq, advance]
      split <;> rfl
    · intro after after_eq
      rw [advance_queriesBuf] at after_eq
      obtain rfl := Option.some.inj after_eq
      rw [pushQuery_queriesBuf, ← dim_eq, ← nbr_eq]
      exact holds_of_update (fun query raw => query = pointers crypto raw)
        _ raw (mirrors.query stored stored_eq) rfl _ _
    · intro after after_eq
      rw [advance_queriesBuf] at after_eq
      obtain rfl := Option.some.inj after_eq
      rw [pushQuery_queriesBuf, ← dim_eq, ← nbr_eq]
      exact holds_of_update (fun shoup raw => shoup = quotients crypto raw)
        _ raw (mirrors.shoup stored stored_eq) rfl _ _
  next => exact absurd inside (by simp)

/-- All elements that are pushed one after the other are where the buffer has them. -/
theorem QueryImport.Mirrors.pushQueries {raws : List crypto.RawQuery}
    (mirrors : generator.Mirrors crypto pirParams buffer)
    (pushes : raws.foldlM (QueryImport.pushQuery crypto) generator = some after) :
    after.Mirrors crypto pirParams (raws.foldl pirParams.pushQuery buffer) := by
  induction raws generalizing generator buffer with
  | nil =>
      obtain rfl := Option.some.inj pushes
      exact mirrors
  | cons raw raws ih =>
      rw [List.foldlM_cons] at pushes
      rcases Option.bind_eq_some_iff.mp pushes with ⟨next, first, rest⟩
      exact ih (mirrors.pushQuery first) rest

end Import

section Memory

open ReplyGenerator

variable {Poly Cipher : Type} {pirParams : PIRParameters}
  {buffer : PIRParameters.QueriesBuffer Cipher} {generator after : ReplyGenerator Poly Cipher}

theorem ReplyGenerator.advance_currentDimIndex (generator : ReplyGenerator Poly Cipher) :
    (generator.advance pirParams).currentDimIndex =
      if pirParams.n generator.currentDimIndex ≤ generator.currentQueryIndex + 1 then
        generator.currentDimIndex + 1
      else generator.currentDimIndex := by
  rw [advance]
  split <;> rfl

theorem ReplyGenerator.advance_currentQueryIndex (generator : ReplyGenerator Poly Cipher) :
    (generator.advance pirParams).currentQueryIndex =
      if pirParams.n generator.currentDimIndex ≤ generator.currentQueryIndex + 1 then 0
      else generator.currentQueryIndex + 1 := by
  rw [advance]
  split <;> rfl

theorem ReplyGenerator.advance_heap (generator : ReplyGenerator Poly Cipher) :
    (generator.advance pirParams).heap = generator.heap := by
  rw [advance]
  split <;> rfl

theorem ReplyGenerator.advance_queriesBuf (generator : ReplyGenerator Poly Cipher) :
    (generator.advance pirParams).queriesBuf = generator.queriesBuf := by
  rw [advance]
  split <;> rfl

/-- The blocks of the query hold the elements of the buffer, with quotients of their own. -/
structure ReplyGenerator.Mirrors (pirParams : PIRParameters)
    (buffer : PIRParameters.QueriesBuffer Cipher) (generator : ReplyGenerator Poly Cipher) :
    Prop where
  dim_eq : generator.currentDimIndex = buffer.currentDimIndex
  nbr_eq : generator.currentQueryIndex = buffer.currentQueryIndex
  query : ∀ dim nbr place, generator.queriesBuf dim nbr = some place →
    readCipher generator.heap place.1 = some (buffer.queriesBuf dim nbr) ∧
      readQuotients generator.heap place.2 = some (buffer.queriesBuf dim nbr)

/-- An element that has been received in a new block is pushed. -/
theorem ReplyGenerator.Mirrors.pushQuery (mirrors : generator.Mirrors pirParams buffer)
    {rawQuery : Cipher}
    (pushes : ReplyGenerator.pushQuery pirParams
      { generator with heap := generator.heap.alloc [.cipher rawQuery] } generator.heap.next =
        some after) :
    after.Mirrors pirParams (pirParams.pushQuery buffer rawQuery) := by
  rw [ReplyGenerator.pushQuery] at pushes
  split at pushes
  next =>
    have cipherRead : readCipher (generator.heap.alloc [.cipher rawQuery]) generator.heap.next =
        some rawQuery := readCipher_of_block (Heap.blocks_alloc_next _ _)
    rw [cipherRead, Option.map_some] at pushes
    obtain rfl := Option.some.inj pushes
    have dim_eq := mirrors.dim_eq
    have nbr_eq := mirrors.nbr_eq
    let heap := (generator.heap.alloc [.cipher rawQuery]).alloc [.quotients rawQuery]
    have within : generator.heap.Within heap :=
      ((Heap.Within.refl generator.heap).alloc _).alloc _
    have kept : ∀ dim nbr place, generator.queriesBuf dim nbr = some place →
        readCipher heap place.1 = some (buffer.queriesBuf dim nbr) ∧
          readQuotients heap place.2 = some (buffer.queriesBuf dim nbr) := by
      intro dim nbr place stored
      rcases mirrors.query dim nbr place stored with ⟨cipher, quotients⟩
      exact ⟨readCipher_within within cipher, read_bind_within within quotients⟩
    let place := (generator.heap.next, generator.heap.next + 1)
    have cipherThere : readCipher heap place.1 = some rawQuery :=
      readCipher_of_block (Heap.blocks_alloc (Heap.blocks_alloc_next generator.heap _))
    have quotientsThere : readQuotients heap place.2 = some rawQuery :=
      readQuotients_of_block (Heap.blocks_alloc_next (generator.heap.alloc _) _)
    have stored := holds_of_update
      (fun (place : ℕ × ℕ) value =>
        readCipher heap place.1 = some value ∧ readQuotients heap place.2 = some value)
      place rawQuery kept ⟨cipherThere, quotientsThere⟩ generator.currentDimIndex
      generator.currentQueryIndex
    constructor
    · rw [pushQuery_currentDimIndex, ← dim_eq, ← nbr_eq]
      exact advance_currentDimIndex _
    · rw [pushQuery_currentQueryIndex, ← dim_eq, ← nbr_eq]
      exact advance_currentQueryIndex _
    · rw [pushQuery_queriesBuf, ← dim_eq, ← nbr_eq, advance_queriesBuf, advance_heap]
      exact stored
  next => exact absurd pushes (by simp)

theorem ReplyGenerator.Mirrors.pushQueries (mirrors : generator.Mirrors pirParams buffer)
    {query : ℕ → ℕ → Cipher}
    (pushes : ReplyRounds.pushQueries pirParams generator query = some after) :
    after.Mirrors pirParams
      ((queryPlaces pirParams).foldl
        (fun buffer place => pirParams.pushQuery buffer (query place.1 place.2)) buffer) := by
  rw [ReplyRounds.pushQueries] at pushes
  generalize queryPlaces pirParams = places at pushes ⊢
  induction places generalizing generator buffer with
  | nil =>
      obtain rfl := Option.some.inj pushes
      exact mirrors
  | cons place places ih =>
      rw [List.foldlM_cons] at pushes
      rcases Option.bind_eq_some_iff.mp pushes with ⟨next, first, rest⟩
      exact ih (mirrors.pushQuery first) rest

end Memory

end Xpir
