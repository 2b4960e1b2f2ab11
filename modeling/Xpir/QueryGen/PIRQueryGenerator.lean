import Mathlib.Algebra.BigOperators.Group.List.Basic
import Mathlib.Algebra.BigOperators.Intervals
import Mathlib.Algebra.Order.BigOperators.Ring.Finset
import Mathlib.Data.List.Range
import Xpir.Foundations.Loop

/-!
# Queries

The database is a box with `d` dimensions. The client writes the number of the
chosen element in the mixed radix given by the sizes of the dimensions, and sends
for each dimension one ciphertext per coordinate: an encryption of one at the
coordinate of the chosen element, and encryptions of zero elsewhere. The server
puts the ciphertexts it receives into a buffer, dimension after dimension.
-/

namespace Xpir

/-- The parameters both parties have agreed on. The sizes are of type `unsigned int`. -/
structure PIRParameters where
  alpha : ℕ
  d : ℕ
  n : ℕ → ℕ
  alpha_pos : 0 < alpha
  d_pos : 0 < d
  n_pos : ∀ i < d, 0 < n i
  n_lt : ∀ i < d, n i < 2 ^ 32

namespace PIRParameters

variable (pirParams : PIRParameters)

/-- The number of elements that remain after the given number of recursion levels. -/
def nbElements (level : ℕ) : ℕ := ∏ j ∈ Finset.Ico level pirParams.d, pirParams.n j

theorem nbElements_d : pirParams.nbElements pirParams.d = 1 := by
  rw [nbElements, Finset.Ico_self, Finset.prod_empty]

theorem nbElements_of_lt {level : ℕ} (level_lt : level < pirParams.d) :
    pirParams.nbElements level = pirParams.n level * pirParams.nbElements (level + 1) :=
  Finset.prod_eq_prod_Ico_succ_bot level_lt _

theorem nbElements_pos (level : ℕ) : 0 < pirParams.nbElements level := by
  apply Finset.prod_pos
  intro j j_mem
  exact pirParams.n_pos j (Finset.mem_Ico.mp j_mem).2

/-- Later levels have fewer elements. -/
theorem nbElements_le {level : ℕ} (level_pos : 0 < level) (level_lt : level < pirParams.d) :
    pirParams.nbElements level ≤ pirParams.nbElements 1 := by
  induction level with
  | zero => exact absurd level_pos (Nat.lt_irrefl 0)
  | succ level ih =>
      rcases Nat.eq_zero_or_pos level with rfl | earlier
      · exact le_rfl
      · have before_lt : level < pirParams.d := Nat.lt_of_succ_lt level_lt
        apply le_trans _ (ih earlier before_lt)
        rw [pirParams.nbElements_of_lt before_lt]
        exact Nat.le_mul_of_pos_left _ (pirParams.n_pos level before_lt)

/-- The loop of `computeCoordinates` on the coordinates and the remaining number. -/
def coordinateLoop (count chosenElement : ℕ) : (ℕ → ℕ) × ℕ :=
  forLoop count (fun i state =>
    (Function.update state.1 i (state.2 % pirParams.n i), state.2 / pirParams.n i))
    (fun _ => 0, chosenElement)

def computeCoordinates (chosenElement : ℕ) : ℕ → ℕ :=
  (pirParams.coordinateLoop pirParams.d chosenElement).1

/-- What is left of the chosen element after the given number of levels. -/
def chosenAt (chosenElement : ℕ) : ℕ → ℕ
  | 0 => chosenElement
  | level + 1 => chosenAt chosenElement level / pirParams.n level

theorem coordinateLoop_eq (count chosenElement : ℕ) :
    (pirParams.coordinateLoop count chosenElement).2 = pirParams.chosenAt chosenElement count ∧
      ∀ i < count, (pirParams.coordinateLoop count chosenElement).1 i =
        pirParams.chosenAt chosenElement i % pirParams.n i := by
  induction count with
  | zero => exact ⟨rfl, fun i i_lt => absurd i_lt (Nat.not_lt_zero i)⟩
  | succ count ih =>
      rw [coordinateLoop, forLoop_succ]
      rw [coordinateLoop] at ih
      refine ⟨congrArg (· / pirParams.n count) ih.1, ?_⟩
      intro i i_lt
      dsimp only
      by_cases same : i = count
      · rw [same, Function.update_self, ih.1]
      · rw [Function.update_of_ne same]
        exact ih.2 i (by omega)

theorem computeCoordinates_eq (chosenElement : ℕ) {i : ℕ} (i_lt : i < pirParams.d) :
    pirParams.computeCoordinates chosenElement i =
      pirParams.chosenAt chosenElement i % pirParams.n i :=
  (pirParams.coordinateLoop_eq pirParams.d chosenElement).2 i i_lt

theorem computeCoordinates_lt (chosenElement : ℕ) {i : ℕ} (i_lt : i < pirParams.d) :
    pirParams.computeCoordinates chosenElement i < pirParams.n i := by
  rw [pirParams.computeCoordinates_eq chosenElement i_lt]
  exact Nat.mod_lt _ (pirParams.n_pos i i_lt)

/-- The server's blocks of the given level: element `n * j + k` has coordinate `k` in block `j`. -/
theorem chosenAt_eq (chosenElement : ℕ) {i : ℕ} (i_lt : i < pirParams.d) :
    pirParams.n i * pirParams.chosenAt chosenElement (i + 1) +
        pirParams.computeCoordinates chosenElement i =
      pirParams.chosenAt chosenElement i := by
  rw [pirParams.computeCoordinates_eq chosenElement i_lt, chosenAt]
  exact Nat.div_add_mod _ _

theorem chosenAt_lt {chosenElement : ℕ} (inside : chosenElement < pirParams.nbElements 0)
    {level : ℕ} (level_le : level ≤ pirParams.d) :
    pirParams.chosenAt chosenElement level < pirParams.nbElements level := by
  induction level with
  | zero => exact inside
  | succ level ih =>
      have earlier := ih (Nat.le_of_succ_le level_le)
      rw [pirParams.nbElements_of_lt level_le] at earlier
      exact Nat.div_lt_of_lt_mul earlier

theorem chosenAt_d {chosenElement : ℕ} (inside : chosenElement < pirParams.nbElements 0) :
    pirParams.chosenAt chosenElement pirParams.d = 0 := by
  have below := pirParams.chosenAt_lt inside le_rfl
  rw [pirParams.nbElements_d] at below
  exact Nat.lt_one_iff.mp below

/-- Numbers beyond the last element are taken modulo the number of elements. -/
theorem chosenAt_mod (chosenElement : ℕ) {level : ℕ} (level_le : level ≤ pirParams.d) :
    pirParams.chosenAt (chosenElement % pirParams.nbElements 0) level =
      pirParams.chosenAt chosenElement level % pirParams.nbElements level := by
  induction level with
  | zero => rfl
  | succ level ih =>
      rw [chosenAt, ih (Nat.le_of_succ_le level_le), pirParams.nbElements_of_lt level_le,
        Nat.mod_mul_right_div_self, chosenAt]

theorem computeCoordinates_mod (chosenElement : ℕ) {i : ℕ} (i_lt : i < pirParams.d) :
    pirParams.computeCoordinates (chosenElement % pirParams.nbElements 0) i =
      pirParams.computeCoordinates chosenElement i := by
  rw [pirParams.computeCoordinates_eq _ i_lt, pirParams.computeCoordinates_eq _ i_lt,
    pirParams.chosenAt_mod _ i_lt.le, pirParams.nbElements_of_lt i_lt, Nat.mod_mul_right_mod]

/-- An element at a given coordinate of one dimension, and at the first of all others. -/
theorem exists_chosenElement {level k : ℕ} (level_lt : level < pirParams.d)
    (k_lt : k < pirParams.n level) : ∃ chosenElement < pirParams.nbElements 0,
      pirParams.computeCoordinates chosenElement level = k := by
  have before : ∀ count ≤ level, pirParams.chosenAt (k * ∏ j ∈ Finset.range level, pirParams.n j)
      count = k * ∏ j ∈ Finset.Ico count level, pirParams.n j := by
    intro count count_le
    induction count with
    | zero => rw [chosenAt, Finset.range_eq_Ico]
    | succ count ih =>
        rw [chosenAt, ih (Nat.le_of_succ_le count_le), Finset.prod_eq_prod_Ico_succ_bot count_le,
          Nat.mul_left_comm]
        exact Nat.mul_div_cancel_left _ (pirParams.n_pos count (by omega))
  refine ⟨k * ∏ j ∈ Finset.range level, pirParams.n j, ?_, ?_⟩
  · have rest_pos := pirParams.nbElements_pos (level + 1)
    have first_pos : 0 < ∏ j ∈ Finset.range level, pirParams.n j := by
      apply Finset.prod_pos
      intro j j_mem
      exact pirParams.n_pos j ((Finset.mem_range.mp j_mem).trans level_lt)
    have split_all : pirParams.nbElements 0 =
        (∏ j ∈ Finset.range level, pirParams.n j) * pirParams.nbElements level := by
      rw [nbElements, nbElements, Finset.range_eq_Ico,
        Finset.prod_Ico_consecutive _ (Nat.zero_le level) level_lt.le]
    rw [split_all, pirParams.nbElements_of_lt level_lt, Nat.mul_comm k]
    apply Nat.mul_lt_mul_of_pos_left _ first_pos
    exact k_lt.trans_le (Nat.le_mul_of_pos_right _ rest_pos)
  · rw [pirParams.computeCoordinates_eq _ level_lt, before level le_rfl, Finset.Ico_self,
      Finset.prod_empty, Nat.mul_one]
    exact Nat.mod_eq_of_lt k_lt

section Query

variable {Coins Cipher : Type} (encrypt : Coins → ℕ → ℕ → Cipher) (coins : ℕ → ℕ → Coins)

/-- The ciphertext for one coordinate of one dimension; each call draws coins of its own. -/
def queryElement (chosenElement j i : ℕ) : Cipher :=
  if i = pirParams.computeCoordinates chosenElement j then encrypt (coins j i) 1 (j + 1)
  else encrypt (coins j i) 0 (j + 1)

/-- The contents of the query buffer, in the order in which they are pushed. -/
def generateQuery (chosenElement : ℕ) : List Cipher :=
  (List.range pirParams.d).flatMap fun j =>
    (List.range (pirParams.n j)).map (pirParams.queryElement encrypt coins chosenElement j)

theorem generateQuery_mod (chosenElement : ℕ) :
    pirParams.generateQuery encrypt coins (chosenElement % pirParams.nbElements 0) =
      pirParams.generateQuery encrypt coins chosenElement := by
  apply List.flatMap_congr
  intro j j_mem
  apply List.map_congr_left
  intro i _
  rw [queryElement, queryElement, pirParams.computeCoordinates_mod _ (List.mem_range.mp j_mem)]

end Query

section Buffer

variable {Cipher : Type}

/-- The queries received by the server, and the place for the next one. -/
structure QueriesBuffer (Cipher : Type) where
  queriesBuf : ℕ → ℕ → Cipher
  currentDimIndex : ℕ
  currentQueryIndex : ℕ

/--
An element is stored at the next place. Neither the sizes of the buffers nor the `int` index
of the element are looked at.
-/
def pushQuery (buffer : QueriesBuffer Cipher) (rawQuery : Cipher) : QueriesBuffer Cipher :=
  let queriesBuf := Function.update buffer.queriesBuf buffer.currentDimIndex
    (Function.update (buffer.queriesBuf buffer.currentDimIndex) buffer.currentQueryIndex rawQuery)
  if pirParams.n buffer.currentDimIndex ≤ buffer.currentQueryIndex + 1 then
    { queriesBuf := queriesBuf
      currentDimIndex := buffer.currentDimIndex + 1
      currentQueryIndex := 0 }
  else
    { queriesBuf := queriesBuf
      currentDimIndex := buffer.currentDimIndex
      currentQueryIndex := buffer.currentQueryIndex + 1 }

/-- The first `dim` dimensions and `count` more ciphertexts have been received. -/
structure Received (query : ℕ → ℕ → Cipher) (dim count : ℕ) (buffer : QueriesBuffer Cipher) :
    Prop where
  full : ∀ j < dim, ∀ i < pirParams.n j, buffer.queriesBuf j i = query j i
  partly : ∀ i < count, buffer.queriesBuf dim i = query dim i
  position : buffer.currentDimIndex = dim ∧ buffer.currentQueryIndex = count

variable {pirParams} {query : ℕ → ℕ → Cipher} {dim count : ℕ} {buffer : QueriesBuffer Cipher}

theorem Received.pushQuery (received : pirParams.Received query dim count buffer)
    (count_lt : count + 1 < pirParams.n dim) :
    pirParams.Received query dim (count + 1) (pirParams.pushQuery buffer (query dim count)) := by
  rcases received with ⟨full, partly, rfl, rfl⟩
  rw [PIRParameters.pushQuery, if_neg (by omega)]
  refine ⟨?_, ?_, rfl, rfl⟩
  · intro j j_lt i i_lt
    dsimp only
    rw [Function.update_of_ne j_lt.ne]
    exact full j j_lt i i_lt
  · intro i i_lt
    dsimp only
    rw [Function.update_self]
    by_cases same : i = buffer.currentQueryIndex
    · rw [same, Function.update_self]
    · rw [Function.update_of_ne same]
      exact partly i (by omega)

theorem Received.pushQuery_last (received : pirParams.Received query dim count buffer)
    (last : count + 1 = pirParams.n dim) :
    pirParams.Received query (dim + 1) 0 (pirParams.pushQuery buffer (query dim count)) := by
  rcases received with ⟨full, partly, rfl, rfl⟩
  rw [PIRParameters.pushQuery, if_pos last.ge]
  refine ⟨?_, fun i i_lt => absurd i_lt (Nat.not_lt_zero i), rfl, rfl⟩
  intro j j_lt i i_lt
  dsimp only
  rcases Nat.lt_succ_iff_lt_or_eq.mp j_lt with before | rfl
  · rw [Function.update_of_ne before.ne]
    exact full j before i i_lt
  · rw [Function.update_self]
    by_cases same : i = buffer.currentQueryIndex
    · rw [same, Function.update_self]
    · rw [Function.update_of_ne same]
      exact partly i (by omega)

theorem Received.dimension (received : pirParams.Received query dim 0 buffer)
    (n_pos : 0 < pirParams.n dim) :
    pirParams.Received query (dim + 1) 0
      (((List.range (pirParams.n dim)).map (query dim)).foldl pirParams.pushQuery buffer) := by
  rcases Nat.exists_eq_succ_of_ne_zero n_pos.ne' with ⟨last, n_eq⟩
  have before : ∀ count ≤ last, pirParams.Received query dim count
      (((List.range count).map (query dim)).foldl pirParams.pushQuery buffer) := by
    intro count count_le
    induction count with
    | zero => exact received
    | succ count ih =>
        rw [List.range_succ, List.map_append, List.foldl_append]
        exact (ih (Nat.le_of_succ_le count_le)).pushQuery (by omega)
  rw [n_eq, List.range_succ, List.map_append, List.foldl_append]
  exact (before last le_rfl).pushQuery_last n_eq.symm

/-- The server stores the queries of a client under their dimension and coordinate. -/
theorem received_generateQuery (pirParams : PIRParameters) {Coins : Type}
    (encrypt : Coins → ℕ → ℕ → Cipher) (coins : ℕ → ℕ → Coins) (chosenElement : ℕ)
    (initial : ℕ → ℕ → Cipher) :
    pirParams.Received (pirParams.queryElement encrypt coins chosenElement) pirParams.d 0
      ((pirParams.generateQuery encrypt coins chosenElement).foldl pirParams.pushQuery
        ⟨initial, 0, 0⟩) := by
  have run : ∀ dim ≤ pirParams.d,
      pirParams.Received (pirParams.queryElement encrypt coins chosenElement) dim 0
        (((List.range dim).flatMap fun j => (List.range (pirParams.n j)).map
          (pirParams.queryElement encrypt coins chosenElement j)).foldl pirParams.pushQuery
            ⟨initial, 0, 0⟩) := by
    intro dim dim_le
    induction dim with
    | zero => exact ⟨fun j j_lt => absurd j_lt (Nat.not_lt_zero j),
        fun i i_lt => absurd i_lt (Nat.not_lt_zero i), rfl, rfl⟩
    | succ dim ih =>
        rw [List.range_succ, List.flatMap_append, List.foldl_append, List.flatMap_singleton]
        exact (ih (Nat.le_of_succ_le dim_le)).dimension (pirParams.n_pos dim dim_le)
  exact run pirParams.d le_rfl

end Buffer

end PIRParameters

end Xpir
