import Mathlib.Algebra.BigOperators.Group.Finset.Basic
import Mathlib.Algebra.Group.Int.Defs
import Xpir.ReplyGenerator.PIRReplyGeneratorNFL

/-!
# Subtractive replies

With an ideal linearly homomorphic cryptosystem, a level of the server selects in
each block of its elements the one at the coordinate of the client. If a request is
given, it is subtracted from the selected elements of the first level, and the
difference is then carried through the other levels like any data. Decrypting the
reply level by level gives the chosen element minus the request.

This holds for all dimensions whose size does not exceed `maxQuerySize`, and for no
others: in a longer loop some element is absorbed more than once.
-/

namespace Xpir

variable {Poly Cipher Coins : Type}

/-- Decrypting a sum of products of plaintexts and encrypted numbers gives the sum. -/
def LinearlyHomomorphic [AddCommMonoid Poly] (crypto : LatticesBasedCryptosystem Poly Cipher)
    (encrypt : Coins → ℕ → ℕ → Cipher) (dec : Cipher → Poly) : Prop :=
  ∀ (terms : List (Poly × Coins × ℕ)) (level : ℕ),
    dec (terms.foldl (fun rop term =>
      crypto.mulandadd rop term.1 (encrypt term.2.1 term.2.2 level)) crypto.zero) =
        (terms.map fun term => term.2.2 • term.1).sum

/-- A sum of products of plaintexts and encrypted numbers. -/
def sumOfProducts (crypto : LatticesBasedCryptosystem Poly Cipher) (encrypt : Coins → ℕ → ℕ → Cipher)
    (terms : List (Poly × Coins × ℕ)) (level : ℕ) : Cipher :=
  terms.foldl (fun rop term =>
    crypto.mulandadd rop term.1 (encrypt term.2.1 term.2.2 level)) crypto.zero

/-- The ciphertexts of a level can be put together again from the polynomials they were cut into. -/
def LosslessReimport (pirParams : PIRParameters) (crypto : LatticesBasedCryptosystem Poly Cipher)
    (reassemble : (ℕ → Poly) → ℕ → ℕ → Cipher) (nbPolys : ℕ) : Prop :=
  ∀ level, level + 1 < pirParams.d → ∀ (ciphers : ℕ → Cipher) (polys : ℕ → Poly),
    (∀ poly < crypto.levelPolys nbPolys (level + 1),
      polys poly = crypto.deserializeDataNFL ciphers (crypto.levelPolys nbPolys level) poly) →
    ∀ index < crypto.levelPolys nbPolys level,
      reassemble polys (crypto.levelPolys nbPolys level) index = ciphers index

/-- Decryption of the reply of a level, and of the levels below it. -/
def decryptLevels (crypto : LatticesBasedCryptosystem Poly Cipher) (dec : Cipher → Poly)
    (reassemble : (ℕ → Poly) → ℕ → ℕ → Cipher) (nbPolys : ℕ) : ℕ → (ℕ → Cipher) → ℕ → Poly
  | 0, ciphers => fun poly => dec (ciphers poly)
  | level + 1, ciphers => decryptLevels crypto dec reassemble nbPolys level
      (reassemble (fun poly => dec (ciphers poly)) (crypto.levelPolys nbPolys level))

section Selection

variable {crypto : LatticesBasedCryptosystem Poly Cipher} {encrypt : Coins → ℕ → ℕ → Cipher}
  {dec : Cipher → Poly} {pirParams : PIRParameters}

/-- The elements with the numbers that the queries of a dimension are encryptions of. -/
def queryTerms (pirParams : PIRParameters) (coins : ℕ → ℕ → Coins) (chosenElement i : ℕ)
    (data : ℕ → Poly) (indices : List ℕ) : List (Poly × Coins × ℕ) :=
  indices.map fun k =>
    (data k, coins i k, if k = pirParams.computeCoordinates chosenElement i then 1 else 0)

theorem absorbList_queryElement (coins : ℕ → ℕ → Coins) (chosenElement i : ℕ) (data : ℕ → Poly)
    (indices : List ℕ) :
    crypto.absorbList data (pirParams.queryElement encrypt coins chosenElement i) indices =
      sumOfProducts crypto encrypt (queryTerms pirParams coins chosenElement i data indices)
        (i + 1) := by
  rw [sumOfProducts, queryTerms, List.foldl_map, LatticesBasedCryptosystem.absorbList]
  congr 1
  funext rop k
  rw [PIRParameters.queryElement]
  split <;> rfl

/-- The sum of a list of elements, decrypted. -/
theorem LinearlyHomomorphic.dec_absorbList [AddCommMonoid Poly]
    (homomorphic : LinearlyHomomorphic crypto encrypt dec) (coins : ℕ → ℕ → Coins)
    (chosenElement : ℕ) {i : ℕ} (data : ℕ → Poly) (indices : List ℕ) :
    dec (crypto.absorbList data (pirParams.queryElement encrypt coins chosenElement i) indices) =
      indices.count (pirParams.computeCoordinates chosenElement i) •
        data (pirParams.computeCoordinates chosenElement i) := by
  have sum := homomorphic (queryTerms pirParams coins chosenElement i data indices) (i + 1)
  rw [queryTerms, List.map_map] at sum
  rw [absorbList_queryElement, sumOfProducts, queryTerms, sum]
  clear sum
  induction indices with
  | nil => simp
  | cons k indices ih =>
      rw [List.map_cons, List.sum_cons, ih, List.count_cons, add_comm]
      by_cases same : k = pirParams.computeCoordinates chosenElement i
      · simp [same, add_smul]
      · simp [same]

/-- A block of elements, absorbed with the queries of its dimension. -/
theorem LinearlyHomomorphic.dec_absorbed [AddCommMonoid Poly]
    (homomorphic : LinearlyHomomorphic crypto encrypt dec) (coins : ℕ → ℕ → Coins)
    (chosenElement : ℕ) {i : ℕ} (i_lt : i < pirParams.d) (data : ℕ → Poly) :
    dec (crypto.absorbed (pirParams.n i) data
        (pirParams.queryElement encrypt coins chosenElement i) none) =
      data (pirParams.computeCoordinates chosenElement i) := by
  have once : (List.range (pirParams.n i)).count (pirParams.computeCoordinates chosenElement i) =
      1 := by
    apply List.count_eq_one_of_mem List.nodup_range
    exact List.mem_range.mpr (pirParams.computeCoordinates_lt chosenElement i_lt)
  calc dec (crypto.absorbed (pirParams.n i) data
        (pirParams.queryElement encrypt coins chosenElement i) none)
      = dec (crypto.absorbList data (pirParams.queryElement encrypt coins chosenElement i)
          (List.range (pirParams.n i))) := by
        rw [← LatticesBasedCryptosystem.absorbRange_zero]
        rfl
    _ = data (pirParams.computeCoordinates chosenElement i) := by
        rw [homomorphic.dec_absorbList, once, one_smul]

/-- The same, with a request that is subtracted. -/
theorem LinearlyHomomorphic.dec_absorbed_some [AddCommGroup Poly]
    (homomorphic : LinearlyHomomorphic crypto encrypt dec)
    (dec_sub : ∀ left right, dec (crypto.sub left right) = dec left - dec right)
    (coins : ℕ → ℕ → Coins) (chosenElement : ℕ) {i : ℕ} (i_lt : i < pirParams.d)
    (data : ℕ → Poly) (request : Cipher) :
    dec (crypto.absorbed (pirParams.n i) data
        (pirParams.queryElement encrypt coins chosenElement i) (some request)) =
      data (pirParams.computeCoordinates chosenElement i) - dec request := by
  rw [← homomorphic.dec_absorbed coins chosenElement i_lt data]
  exact dec_sub _ _

/-- Elements that are absorbed with the queries of a dimension, some of them repeatedly. -/
theorem LinearlyHomomorphic.dec_sumOfProducts [AddCommMonoid Poly]
    (homomorphic : LinearlyHomomorphic crypto encrypt dec) (coins : ℕ → ℕ → Coins)
    (chosenElement i : ℕ) (data : ℕ → Poly) (indices : List ℕ) :
    dec (sumOfProducts crypto encrypt (queryTerms pirParams coins chosenElement i data indices)
        (i + 1)) =
      indices.count (pirParams.computeCoordinates chosenElement i) •
        data (pirParams.computeCoordinates chosenElement i) := by
  rw [← absorbList_queryElement]
  exact homomorphic.dec_absorbList coins chosenElement data indices

/-- Each level selects the elements at the coordinate of the client. -/
theorem LinearlyHomomorphic.dec_queryTerms [AddCommMonoid Poly]
    (homomorphic : LinearlyHomomorphic crypto encrypt dec) (coins : ℕ → ℕ → Coins)
    (chosenElement : ℕ) {i : ℕ} (i_lt : i < pirParams.d) (data : ℕ → Poly) :
    dec (sumOfProducts crypto encrypt (queryTerms pirParams coins chosenElement i data
        (List.range (pirParams.n i))) (i + 1)) =
      data (pirParams.computeCoordinates chosenElement i) := by
  rw [← homomorphic.dec_absorbed coins chosenElement i_lt data, ← absorbList_queryElement,
    ← LatticesBasedCryptosystem.absorbRange_zero]
  rfl

/-- Without a request, each result of the server is a sum over a block of elements. -/
theorem exists_indices {buffer : PIRParameters.QueriesBuffer Cipher} {coins : ℕ → ℕ → Coins}
    {chosenElement : ℕ}
    (received : pirParams.Received (pirParams.queryElement encrypt coins chosenElement) pirParams.d 0
      buffer) {inputData : ℕ → ℕ → Poly} {nbPolys fuel : ℕ}
    {final : LatticesBasedCryptosystem.ReplyState Poly Cipher}
    (returns : crypto.generateReply pirParams fuel buffer.queriesBuf inputData nbPolys none =
      some final) {i j poly : ℕ} (i_lt : i < pirParams.d) (j_lt : j < pirParams.nbElements (i + 1))
    (poly_lt : poly < crypto.levelPolys nbPolys i) :
    ∃ indices : List ℕ,
      (if pirParams.n i ≤ maxQuerySize then
        indices = List.range (pirParams.n i)
      else indices.count 8 = 2) ∧
      final.interReply i j poly = sumOfProducts crypto encrypt
        (queryTerms pirParams coins chosenElement i (fun k =>
          crypto.levelData inputData nbPolys final.interReply i (pirParams.n i * j + k) poly)
          indices) (i + 1) := by
  have holds := LatticesBasedCryptosystem.levels_of_generateReply returns
  have result := holds.absorb_received received i_lt j_lt poly_lt
  rw [Option.map_none, ite_self] at result
  simp only [← absorbList_queryElement]
  rcases Nat.lt_or_ge maxQuerySize (pirParams.n i) with exceeds | fits
  · rcases LatticesBasedCryptosystem.exists_of_absorb exceeds result with
      ⟨indices, -, twice, result_eq⟩
    exact ⟨indices, by rw [if_neg (not_le.mpr exceeds)]; exact twice, result_eq⟩
  · refine ⟨List.range (pirParams.n i), by rw [if_pos fits], ?_⟩
    rw [LatticesBasedCryptosystem.eq_absorbed (pirParams.n_pos i i_lt) fits result,
      LatticesBasedCryptosystem.absorbed_eq, LatticesBasedCryptosystem.absorbRange_zero]
    rfl

end Selection

section Levels

variable [AddCommGroup Poly] {crypto : LatticesBasedCryptosystem Poly Cipher}
  {encrypt : Coins → ℕ → ℕ → Cipher} {dec : Cipher → Poly}
  {reassemble : (ℕ → Poly) → ℕ → ℕ → Cipher} {pirParams : PIRParameters} {coins : ℕ → ℕ → Coins}
  {chosenElement : ℕ} {inputData : ℕ → ℕ → Poly} {nbPolys : ℕ} {request : ℕ → Cipher}

/--
The request is subtracted from every result of the first level, and from no other
result; the reply decrypts to the difference of the chosen element and the request.
-/
structure SubtractsOnce (pirParams : PIRParameters)
    (crypto : LatticesBasedCryptosystem Poly Cipher) (dec : Cipher → Poly)
    (reassemble : (ℕ → Poly) → ℕ → ℕ → Cipher) (chosenElement : ℕ) (inputData : ℕ → ℕ → Poly)
    (nbPolys : ℕ) (request : ℕ → Cipher)
    (final : LatticesBasedCryptosystem.ReplyState Poly Cipher) : Prop where
  levels : ∀ i < pirParams.d, ∀ j < pirParams.nbElements (i + 1),
    ∀ poly < crypto.levelPolys nbPolys i, dec (final.interReply i j poly) =
      crypto.levelData inputData nbPolys final.interReply i
          (pirParams.n i * j + pirParams.computeCoordinates chosenElement i) poly -
        if i = 0 then dec (request poly) else 0
  reply : ∀ poly < nbPolys, decryptLevels crypto dec reassemble nbPolys (pirParams.d - 1)
      (LatticesBasedCryptosystem.repliesArray pirParams final) poly =
    inputData chosenElement poly - dec (request poly)

/-- Decryption of the results that belong to the chosen element, from some level down. -/
theorem decryptLevels_eq (lossless : LosslessReimport pirParams crypto reassemble nbPolys)
    (inside : chosenElement < pirParams.nbElements 0)
    {interReply : ℕ → ℕ → ℕ → Cipher}
    (levels : ∀ i < pirParams.d, ∀ j < pirParams.nbElements (i + 1),
      ∀ poly < crypto.levelPolys nbPolys i, dec (interReply i j poly) =
        crypto.levelData inputData nbPolys interReply i
            (pirParams.n i * j + pirParams.computeCoordinates chosenElement i) poly -
          if i = 0 then dec (request poly) else 0)
    {i : ℕ} (i_lt : i < pirParams.d) {ciphers : ℕ → Cipher}
    (agree : ∀ poly < crypto.levelPolys nbPolys i,
      ciphers poly = interReply i (pirParams.chosenAt chosenElement (i + 1)) poly)
    {poly : ℕ} (poly_lt : poly < nbPolys) :
    decryptLevels crypto dec reassemble nbPolys i ciphers poly =
      inputData chosenElement poly - dec (request poly) := by
  induction i generalizing ciphers with
  | zero =>
      simp only [decryptLevels]
      rw [agree poly poly_lt, levels 0 i_lt _
        (pirParams.chosenAt_lt inside i_lt) poly poly_lt, pirParams.chosenAt_eq _ i_lt, if_pos rfl]
      rfl
  | succ i ih =>
      rw [decryptLevels]
      apply ih (Nat.lt_of_succ_lt i_lt)
      apply lossless i i_lt
      intro index index_lt
      rw [agree index index_lt, levels (i + 1) i_lt _ (pirParams.chosenAt_lt inside i_lt) index
        index_lt, pirParams.chosenAt_eq _ i_lt, if_neg (Nat.succ_ne_zero i), sub_zero]
      rfl

theorem exists_subtractsOnce (fits : LatticesBasedCryptosystem.RoundsFit pirParams)
    (homomorphic : LinearlyHomomorphic crypto encrypt dec)
    (dec_sub : ∀ left right, dec (crypto.sub left right) = dec left - dec right)
    (lossless : LosslessReimport pirParams crypto reassemble nbPolys)
    (inside : chosenElement < pirParams.nbElements 0)
    {buffer : PIRParameters.QueriesBuffer Cipher}
    (received : pirParams.Received (pirParams.queryElement encrypt coins chosenElement) pirParams.d 0
      buffer) :
    ∃ fuel final, crypto.generateReply pirParams fuel buffer.queriesBuf inputData nbPolys
        (some request) = some final ∧
      SubtractsOnce pirParams crypto dec reassemble chosenElement inputData nbPolys request
        final := by
  have enough := pirParams.n_lt
  rcases LatticesBasedCryptosystem.exists_generateReply crypto buffer.queriesBuf inputData nbPolys
    (some request) fits enough with ⟨final, returns⟩
  have holds := LatticesBasedCryptosystem.levels_of_generateReply returns
  have levels : ∀ i < pirParams.d, ∀ j < pirParams.nbElements (i + 1),
      ∀ poly < crypto.levelPolys nbPolys i, dec (final.interReply i j poly) =
        crypto.levelData inputData nbPolys final.interReply i
            (pirParams.n i * j + pirParams.computeCoordinates chosenElement i) poly -
          if i = 0 then dec (request poly) else 0 := by
    intro i i_lt j j_lt poly poly_lt
    have result := holds.absorb_received received i_lt j_lt poly_lt
    rw [LatticesBasedCryptosystem.absorb_eq _ (pirParams.n_pos i i_lt) (fits i i_lt)
      (enough i i_lt)] at result
    rw [← Option.some.inj result]
    split
    next => exact homomorphic.dec_absorbed_some dec_sub coins chosenElement i_lt _ _
    next =>
      rw [sub_zero]
      exact homomorphic.dec_absorbed coins chosenElement i_lt _
  have last : pirParams.d - 1 < pirParams.d := Nat.sub_lt pirParams.d_pos Nat.one_pos
  refine ⟨2 ^ 32, final, returns, levels, ?_⟩
  intro poly poly_lt
  apply decryptLevels_eq lossless inside levels last _ poly_lt
  intro index _
  rw [Nat.sub_add_cancel pirParams.d_pos, pirParams.chosenAt_d inside]
  rfl

end Levels

section Integers

/-- A scheme whose ciphertexts and plaintexts are the integers. -/
def integerScheme : LatticesBasedCryptosystem ℤ ℤ where
  zero := 0
  mulandadd := fun rop data query => rop + query * data
  sub := fun left right => left - right
  deserializeDataNFL := fun ciphers _ poly => ciphers poly
  absorptionBitsize := 8
  ciphertextBitsize := 8

def integerEncrypt (_ : Unit) (ui _ : ℕ) : ℤ := ui

theorem integerScheme_homomorphic : LinearlyHomomorphic integerScheme integerEncrypt id := by
  intro terms level
  have shifted : ∀ rop : ℤ, terms.foldl (fun rop term =>
      integerScheme.mulandadd rop term.1 (integerEncrypt term.2.1 term.2.2 level)) rop =
        rop + (terms.map fun term => term.2.2 • term.1).sum := by
    induction terms with
    | nil => simp
    | cons term terms ih =>
        intro rop
        rw [List.foldl_cons, ih, List.map_cons, List.sum_cons, ← add_assoc, nsmul_eq_mul]
        rfl
  rw [shifted]
  exact zero_add _

theorem integerScheme_levelPolys (level : ℕ) : integerScheme.levelPolys 1 level = 1 := by
  have one : toDouble 1 = 1 := by exact_mod_cast roundTo_natCast (by decide : 1 < 2 ^ 53)
  have eight : toDouble 8 = 8 := by exact_mod_cast roundTo_natCast (by decide : 8 < 2 ^ 53)
  induction level with
  | zero => rfl
  | succ level ih =>
      rw [LatticesBasedCryptosystem.levelPolys, ih, LatticesBasedCryptosystem.reimportNbPolys]
      norm_num [integerScheme, one, eight]

theorem integerScheme_lossless (pirParams : PIRParameters) :
    LosslessReimport pirParams integerScheme (fun polys _ index => polys index) 1 := by
  intro level _ ciphers polys agree index index_lt
  rw [integerScheme_levelPolys] at agree index_lt
  exact agree index index_lt

end Integers

/--
The subtractive reply of every ideal scheme is right for every client if and only if
no dimension exceeds the size beyond which the offset of the rounds wraps around.
-/
theorem subtractsOnce_iff (pirParams : PIRParameters) :
    (∀ {Poly Cipher Coins : Type} [AddCommGroup Poly]
      (crypto : LatticesBasedCryptosystem Poly Cipher) (encrypt : Coins → ℕ → ℕ → Cipher)
      (dec : Cipher → Poly) (reassemble : (ℕ → Poly) → ℕ → ℕ → Cipher) (nbPolys : ℕ),
      LinearlyHomomorphic crypto encrypt dec →
      (∀ left right, dec (crypto.sub left right) = dec left - dec right) →
      LosslessReimport pirParams crypto reassemble nbPolys →
      ∀ (coins : ℕ → ℕ → Coins) (chosenElement : ℕ), chosenElement < pirParams.nbElements 0 →
      ∀ (inputData : ℕ → ℕ → Poly) (request : ℕ → Cipher) (initial : ℕ → ℕ → Cipher),
      ∃ fuel final, crypto.generateReply pirParams fuel
          ((pirParams.generateQuery encrypt coins chosenElement).foldl pirParams.pushQuery
            ⟨initial, 0, 0⟩).queriesBuf inputData nbPolys (some request) = some final ∧
        SubtractsOnce pirParams crypto dec reassemble chosenElement inputData nbPolys request
          final) ↔
      LatticesBasedCryptosystem.RoundsFit pirParams := by
  constructor
  · intro exact i i_lt
    by_contra exceeds
    rw [not_le] at exceeds
    have wide : 8 < pirParams.n i := lt_trans (by decide) exceeds
    rcases pirParams.exists_chosenElement i_lt wide with ⟨chosenElement, inside, coordinate⟩
    rcases exact integerScheme integerEncrypt id _ 1 integerScheme_homomorphic (fun _ _ => rfl)
      (integerScheme_lossless pirParams) (fun _ _ => ()) chosenElement inside (fun _ _ => 1)
      (fun _ => 0) (fun _ _ => 0) with ⟨fuel, final, returns, once⟩
    have holds := LatticesBasedCryptosystem.levels_of_generateReply returns
    have received := pirParams.received_generateQuery integerEncrypt (fun _ _ => ()) chosenElement
      (fun _ _ => (0 : ℤ))
    have one_poly : ∀ level, 0 < integerScheme.levelPolys 1 level := fun level => by
      rw [integerScheme_levelPolys]
      exact Nat.one_pos
    -- All elements of all levels are one, as long as the replies are right.
    have ones : ∀ level ≤ i, ∀ element < pirParams.nbElements level,
        integerScheme.levelData (fun _ _ => 1) 1 final.interReply level element 0 = 1 := by
      intro level level_le
      induction level with
      | zero => exact fun _ _ => rfl
      | succ level ih =>
          intro element element_lt
          have level_lt : level < pirParams.d := by omega
          have value := once.levels level level_lt element element_lt 0 (one_poly level)
          rw [ih (by omega) _ (LatticesBasedCryptosystem.index_lt level_lt element_lt
            (pirParams.computeCoordinates_lt chosenElement level_lt))] at value
          have reply : final.interReply level element 0 = 1 := by simpa using value
          exact reply
    have block_pos := pirParams.nbElements_pos (i + 1)
    have value := once.levels i i_lt 0 block_pos 0 (one_poly i)
    have coordinate_lt := pirParams.computeCoordinates_lt chosenElement i_lt
    have one_at := ones i le_rfl _
      (LatticesBasedCryptosystem.index_lt i_lt block_pos coordinate_lt)
    rw [one_at] at value
    rcases LatticesBasedCryptosystem.exists_of_absorb exceeds
      (holds.absorb_received received i_lt block_pos (one_poly i)) with
      ⟨indices, -, twice, result_eq⟩
    have sum : integerScheme.absorbList (fun k => integerScheme.levelData (fun _ _ => 1) 1
        final.interReply i (pirParams.n i * 0 + k) 0)
        (pirParams.queryElement integerEncrypt (fun _ _ => ()) chosenElement i) indices =
          indices.count (pirParams.computeCoordinates chosenElement i) •
            integerScheme.levelData (fun _ _ => 1) 1 final.interReply i
              (pirParams.n i * 0 + pirParams.computeCoordinates chosenElement i) 0 :=
      integerScheme_homomorphic.dec_absorbList _ _ _ _
    rw [one_at, coordinate] at sum
    have unchanged : ∀ subtract : Option ℤ, subtract = some 0 ∨ subtract = none →
        ∀ result, integerScheme.subtracted subtract result = result := by
      rintro _ (rfl | rfl) result
      · exact sub_zero result
      · rfl
    rw [unchanged _ (by split <;> simp), sum] at result_eq
    simp only [id_eq, result_eq, ite_self, sub_zero, nsmul_eq_mul, mul_one] at value
    omega
  · intro fits Poly Cipher Coins group crypto encrypt dec reassemble nbPolys homomorphic dec_sub
      lossless coins chosenElement inside inputData request initial
    exact exists_subtractsOnce fits homomorphic dec_sub lossless inside
      (pirParams.received_generateQuery encrypt coins chosenElement initial)

/-- Six elements in two dimensions, of which the fifth is retrieved. -/
theorem subtractsOnce_iff_six :
    let pirParams : PIRParameters := ⟨1, 2, fun i => if i = 0 then 3 else 2, by decide, by decide,
      by decide, by decide⟩
    ∃ fuel final, integerScheme.generateReply pirParams fuel
        ((pirParams.generateQuery integerEncrypt (fun _ _ => ()) 4).foldl pirParams.pushQuery
          ⟨fun _ _ => 0, 0, 0⟩).queriesBuf (fun element _ => element) 1 (some fun _ => 7) =
            some final ∧
      SubtractsOnce pirParams integerScheme id (fun polys _ index => polys index) 4
        (fun element _ => element) 1 (fun _ => 7) final := by
  intro pirParams
  exact (subtractsOnce_iff pirParams).mpr (by rw [LatticesBasedCryptosystem.RoundsFit]; decide)
    integerScheme integerEncrypt id _ 1 integerScheme_homomorphic (fun _ _ => rfl)
    (integerScheme_lossless pirParams) _ 4 (by decide) _ _ _

/-- With one dimension of 4294967295 coordinates, the server never ends. -/
theorem not_subtractsOnce_large :
    let pirParams : PIRParameters := ⟨1, 1, fun _ => 4294967295, by decide, by decide, by decide,
      by decide⟩
    ¬ ∃ fuel final, integerScheme.generateReply pirParams fuel
        ((pirParams.generateQuery integerEncrypt (fun _ _ => ()) 0).foldl pirParams.pushQuery
          ⟨fun _ _ => 0, 0, 0⟩).queriesBuf (fun _ _ => 1) 1 (some fun _ => 0) = some final ∧
      SubtractsOnce pirParams integerScheme id (fun polys _ index => polys index) 0
        (fun _ _ => 1) 1 (fun _ => 0) final := by
  rintro pirParams ⟨fuel, final, returns, -⟩
  have holds := LatticesBasedCryptosystem.levels_of_generateReply returns
  have reply := holds.replies 0 pirParams.d_pos 0 (by decide) 0 Nat.one_pos
  rw [LatticesBasedCryptosystem.absorb_eq_none (by decide)] at reply
  exact absurd reply (by simp)

end Xpir
