import Xpir.NFLLWE.Ciphertexts

/-!
# Noise budget of a lazily accumulated reply

This file settles which replies the absorption chosen by `setandgetAbsBitPerCiphertext`
lets decryption read. The integers a reply stands for always stay within the noise range
(`noise_lt_moduliProduct`). The words of the reply are another matter: each product is
added with one conditional subtraction only, and decryption relies on words below twice
the modulus. `AccumulatesBelow` is the condition on the steps of the accumulation under
which they stay there.
-/

namespace Xpir

open NFLlib

namespace NFLlib

variable {p : ℕ} {x y : ℕ → ℕ}

/-- A word below twice the modulus after a step shows that the step stayed below the bound. -/
theorem below_of_bounded {i : ℕ} (p_lt : p < 2 ^ 61) (x_lt : x i < 2 * p) (y_lt : y i < p)
    (before : shoupAccumulator p x y i < 2 * p)
    (bounded : shoupAccumulator p x y (i + 1) < 2 * p) :
    shoupAccumulator p x y i + shoupRemainder (2 ^ 64) (x i) (y i) p < 3 * p := by
  have added := shoupRemainder_quarter (show 0 < p by omega) p_lt x_lt (y i)
  have remainder := shoupDifference_of_lt_two_mul p_lt x_lt y_lt
  rw [shoupAccumulator_succ, mulandaddShoup_lt_two_mul_iff (by omega), remainder] at bounded
  exact bounded

end NFLlib

namespace NFLLWE

section Steps

variable {lwe : NFLLWE} {eltNbr : ℕ} {data : ℕ → Poly lwe.nfl.nbModuli}
  {coefficient : ℕ → ℕ → ℕ} {query : ℕ → Poly lwe.nfl.nbModuli × Poly lwe.nfl.nbModuli}
  {v : ℕ → ℕ → ℤ}

/--
At every step of the accumulation, no word of the partial reply plus the remainder of the
product that is added to it reaches three times the modulus.
-/
def AccumulatesBelow (lwe : NFLLWE) (eltNbr : ℕ) (data : ℕ → Poly lwe.nfl.nbModuli)
    (query : ℕ → Poly lwe.nfl.nbModuli × Poly lwe.nfl.nbModuli) : Prop :=
  ∀ cm, ∀ cell < lwe.nfl.polyDegree, ∀ k < eltNbr,
    (lwe.lazyReply k data query).1 cm cell +
        shoupRemainder (2 ^ 64) (data k cm cell) ((query k).1 cm cell) (lwe.nfl.moduli cm).p <
      3 * (lwe.nfl.moduli cm).p ∧
    (lwe.lazyReply k data query).2 cm cell +
        shoupRemainder (2 ^ 64) (data k cm cell) ((query k).2 cm cell) (lwe.nfl.moduli cm).p <
      3 * (lwe.nfl.moduli cm).p

theorem AccumulatesBelow.first {count : ℕ} (count_le : count ≤ eltNbr)
    (below : lwe.AccumulatesBelow eltNbr data query) : lwe.AccumulatesBelow count data query :=
  fun cm cell cell_lt k k_lt => below cm cell cell_lt k (by omega)

section Operands

variable (stored : ∀ j < eltNbr, lwe.Stored (data j) (coefficient j))
  (encrypts : ∀ j < eltNbr, lwe.Encrypts (query j) (v j))

include stored encrypts

theorem accumulatesBelow_iff_soundReply :
    lwe.AccumulatesBelow eltNbr data query ↔ lwe.SoundReply eltNbr data query := by
  have p_lt : ∀ cm, (lwe.nfl.moduli cm).p < 2 ^ 61 := lwe.isStandard.p_lt
  constructor
  · intro below cm cell cell_lt
    constructor
    · apply SoundRun.of_below (p_lt cm) (fun j j_lt => (stored j j_lt cm cell cell_lt).1)
        (fun j j_lt => (encrypts j j_lt).reduced_a cm cell cell_lt) (lwe.nfl.moduli cm).p_pos
      intro k k_lt
      rw [← (lazyReply_apply k data query cm cell_lt).1]
      exact (below cm cell cell_lt k k_lt).1
    · apply SoundRun.of_below (p_lt cm) (fun j j_lt => (stored j j_lt cm cell cell_lt).1)
        (fun j j_lt => (encrypts j j_lt).reduced_b cm cell cell_lt) (lwe.nfl.moduli cm).p_pos
      intro k k_lt
      rw [← (lazyReply_apply k data query cm cell_lt).2]
      exact (below cm cell cell_lt k k_lt).2
  · intro sound cm cell cell_lt k k_lt
    rw [(lazyReply_apply k data query cm cell_lt).1, (lazyReply_apply k data query cm cell_lt).2]
    exact ⟨(sound cm cell cell_lt).1.below (p_lt cm)
        (fun j j_lt => (stored j j_lt cm cell cell_lt).1)
        (fun j j_lt => (encrypts j j_lt).reduced_a cm cell cell_lt) k k_lt,
      (sound cm cell cell_lt).2.below (p_lt cm)
        (fun j j_lt => (stored j j_lt cm cell cell_lt).1)
        (fun j j_lt => (encrypts j j_lt).reduced_b cm cell cell_lt) k k_lt⟩

/-- The partial replies are what decryption relies on exactly when every step stays below. -/
theorem lazilyEncrypts_iff_accumulatesBelow :
    (∀ k ≤ eltNbr, lwe.LazilyEncrypts (lwe.lazyReply k data query)
      (replyPolynomial lwe.nfl.polyDegree k coefficient v)) ↔
        lwe.AccumulatesBelow eltNbr data query := by
  constructor
  · intro lazily cm cell cell_lt k k_lt
    have p_lt := lwe.isStandard.p_lt cm
    have data_lt := (stored k k_lt cm cell cell_lt).1
    have before_a := (lazily k k_lt.le).lazy_a cm cell cell_lt
    have before_b := (lazily k k_lt.le).lazy_b cm cell cell_lt
    have after_a := (lazily (k + 1) k_lt).lazy_a cm cell cell_lt
    have after_b := (lazily (k + 1) k_lt).lazy_b cm cell cell_lt
    rw [(lazyReply_apply _ data query cm cell_lt).1] at before_a after_a ⊢
    rw [(lazyReply_apply _ data query cm cell_lt).2] at before_b after_b ⊢
    exact ⟨below_of_bounded p_lt data_lt ((encrypts k k_lt).reduced_a cm cell cell_lt) before_a
        after_a,
      below_of_bounded p_lt data_lt ((encrypts k k_lt).reduced_b cm cell cell_lt) before_b after_b⟩
  · intro below k k_le
    have stored_first : ∀ j < k, lwe.Stored (data j) (coefficient j) :=
      fun j j_lt => stored j (by omega)
    have encrypts_first : ∀ j < k, lwe.Encrypts (query j) (v j) :=
      fun j j_lt => encrypts j (by omega)
    exact lazilyEncrypts_lazyReply stored_first encrypts_first
      ((accumulatesBelow_iff_soundReply stored_first encrypts_first).mp (below.first k_le))

end Operands

theorem stored_dataPoly (values : ℕ → ℕ) : lwe.Stored (lwe.dataPoly values) values :=
  fun cm => represents_dataPoly cm values

end Steps

section Statement

variable {securityBits levels aggregatedModulusBitsize : ℕ} {levels_le : levels ≤ 13}
  {absPCBitsize : ℤ} {rnd : ∀ nbModuli, NFLlib.Poly nbModuli} {before : NFLLWE}

/--
With the absorption chosen for the length of the query, no reply exceeds the noise
range of decryption. The words of the partial replies are what decryption relies on
exactly when every step of the accumulation stays below its bound; then a partial reply
that contains the selected data polynomial decrypts to it.
-/
theorem absorption_leaves_noise_budget {eltNbr : ℕ}
    (accepted : setNewParameters securityBits levels_le aggregatedModulusBitsize absPCBitsize
      rnd = some before) (securityBits_pos : 1 ≤ securityBits) (eltNbr_pos : 1 ≤ eltNbr)
    (positive : 0 < (before.setandgetAbsBitPerCiphertext eltNbr).2) :
    let lwe := (before.setandgetAbsBitPerCiphertext eltNbr).1
    let size := lwe.nfl.polyDegree
    (before.setandgetAbsBitPerCiphertext eltNbr).2 =
      ⌊((before.nfl.getmodulusBitsize : ℝ) - 1 - Real.logb 2 eltNbr - Real.logb 2 before.noiseUB -
        Real.logb 2 size) / 2⌋ ∧
    ∀ (data noise : ℕ → ℕ → ℕ) (bit : ℕ → ℕ),
      (∀ j < eltNbr, ∀ i < size, data j i < 2 ^ lwe.aBits) →
      (∀ j < eltNbr, ∀ i < size, noise j i ≤ 2 * lwe.noiseUB - 2) →
      (∀ j < eltNbr, bit j ≤ 1) →
      let v := fun j => amplified lwe.aBits (noise j) (bit j)
      (∀ k ≤ eltNbr, ∀ i < size, 2 * |replyPolynomial size k data v i| < lwe.nfl.moduliProduct ∧
        replyPolynomial size k data v i ≡
          replyPolynomial size k data (fun j i => if i = 0 then (bit j : ℤ) else 0) i
            [ZMOD 2 ^ lwe.aBits]) ∧
      ∀ query, (∀ j < eltNbr, lwe.Encrypts (query j) (v j)) →
        let stored := fun j => lwe.dataPoly (data j)
        ((∀ k ≤ eltNbr, lwe.LazilyEncrypts (lwe.lazyReply k stored query)
            (replyPolynomial size k data v)) ↔ lwe.AccumulatesBelow eltNbr stored query) ∧
        (lwe.AccumulatesBelow eltNbr stored query →
          ∀ chosen < eltNbr, (∀ j < eltNbr, bit j = if j = chosen then 1 else 0) →
            ∀ k ≤ eltNbr, chosen < k →
              lwe.Decrypted (data chosen) (lwe.dec (lwe.lazyReply k stored query))) := by
  intro lwe size
  have noiseUB_ge : 2 ≤ before.noiseUB := by
    rw [noiseUB_of_setNewParameters accepted, noiseUpperBound]
    omega
  refine ⟨nbrBit_eq_floor (by omega) (by omega) (Nat.two_pow_pos _), ?_⟩
  intro data noise bit data_lt noise_le bit_le v
  have chosen_eq : lwe.aBits = (before.setandgetAbsBitPerCiphertext eltNbr).2.toNat :=
    aBits_setandgetAbsBitPerCiphertext positive
  have small : ∀ k ≤ eltNbr, ∀ i < size,
      2 * |replyPolynomial size k data v i| < lwe.nfl.moduliProduct := by
    intro k k_le i i_lt
    have bound : |replyPolynomial size k data v i| ≤ _ :=
      abs_replyPolynomial_le (fun j j_lt => data_lt j (by omega))
        (fun j j_lt => noise_le j (by omega)) (fun j j_lt => bit_le j (by omega)) i_lt
    have budget := noise_lt_moduliProduct eltNbr_pos noiseUB_ge positive chosen_eq
    have fewer := Nat.mul_le_mul_right
      (size * ((2 ^ lwe.aBits - 1) * (2 ^ lwe.aBits * (2 * lwe.noiseUB - 2) + 1))) k_le
    zify at budget fewer
    push_cast at bound
    have below := (mul_le_mul_of_nonneg_left bound (show (0 : ℤ) ≤ 2 by omega)).trans
      (mul_le_mul_of_nonneg_left fewer (show (0 : ℤ) ≤ 2 by omega))
    exact lt_of_le_of_lt below (by exact_mod_cast budget)
  have absorbs : 2 ^ lwe.aBits ≤ lwe.nfl.moduliProduct := by
    rw [chosen_eq]
    exact two_pow_le_moduliProduct positive
  refine ⟨fun k k_le i i_lt => ⟨small k k_le i i_lt, replyPolynomial_modEq _ _ _ _ _ _ _⟩, ?_⟩
  intro query encrypts stored
  have sums := lazilyEncrypts_iff_accumulatesBelow (fun j _ => stored_dataPoly (data j)) encrypts
  refine ⟨sums, ?_⟩
  intro below chosen chosen_lt selects k k_le chosen_lt_k
  apply LazilyEncrypts.decrypted (sums.mpr below k k_le) absorbs (small k k_le)
  intro i i_lt
  have residue := replyPolynomial_modEq size k lwe.aBits data noise bit i
  rw [replyPolynomial_selected chosen_lt_k (fun j j_lt => selects j (by omega)) i_lt] at residue
  rw [residue]
  exact Int.emod_eq_of_lt (by positivity) (by exact_mod_cast data_lt chosen chosen_lt i i_lt)

end Statement

/-- Noise in the constant coefficient only. -/
theorem encrypts_amplified (lwe : NFLLWE) {a : Poly lwe.nfl.nbModuli}
    (reduced : lwe.nfl.Reduced a) (noise bit : ℕ) :
    lwe.Encrypts (lwe.constantCipher a (2 ^ lwe.aBits * noise + bit))
      (amplified lwe.aBits (fun i => if i = 0 then noise else 0) bit) := by
  have message : amplified lwe.aBits (fun i => if i = 0 then noise else 0) bit =
      fun i => if i = 0 then 2 ^ lwe.aBits * (noise : ℤ) + bit else 0 := by
    funext i
    by_cases start : i = 0 <;> simp [amplified, start]
  rw [message]
  exact encrypts_constantCipher lwe reduced _

theorem absorption_leaves_noise_budget_smallKey :
    let lwe := (smallKey.setandgetAbsBitPerCiphertext 3).1
    lwe.Decrypted (fun i => i + 100) (lwe.dec (lwe.lazyReply 3
      (fun j => lwe.dataPoly (fun i => i + 100 * j))
      (fun j => lwe.constantCipher (lwe.nfl.uniformRandomPoly (fun cm i => 3 * i + cm + j))
        (2 ^ lwe.aBits * (7 + j : ℕ) + (if j = 1 then 1 else 0 : ℕ))))) := by
  intro lwe
  have encrypts : ∀ j < 3,
      lwe.Encrypts
        (lwe.constantCipher (lwe.nfl.uniformRandomPoly (fun cm i => 3 * i + cm + j))
          (2 ^ lwe.aBits * (7 + j : ℕ) + (if j = 1 then 1 else 0 : ℕ)))
        (amplified lwe.aBits (fun i => if i = 0 then 7 + j else 0) (if j = 1 then 1 else 0)) :=
    fun j _ => encrypts_amplified lwe (lwe.nfl.reduced_uniformRandomPoly _) _ _
  have budget := absorption_leaves_noise_budget (show setNewParameters 80 (show 9 ≤ 13 by decide)
    60 20 (fun _ _ _ => 1) = some smallKey from rfl) (by decide) (show 1 ≤ 3 by decide)
    (by decide +kernel)
  have sums := budget.2 (fun j i => i + 100 * j) (fun j i => if i = 0 then 7 + j else 0)
    (fun j => if j = 1 then 1 else 0) (by decide +kernel) (by decide +kernel) (by decide)
  have stored : ∀ j < 3, lwe.Stored (lwe.dataPoly (fun i => i + 100 * j)) (fun i => i + 100 * j) :=
    fun j _ => stored_dataPoly _
  have below := (accumulatesBelow_iff_soundReply stored encrypts).mpr
    (soundReply_of_le_five stored encrypts (by decide))
  exact (sums.2 _ encrypts).2 below 1 (by decide) (by decide) 3 le_rfl (by decide)

/-! ## Many products -/

/-- Parameters of degree four. -/
def fourKey : NFLLWE :=
  recomputeNoiseAmplifiers
    { nfl := standard 2 1 two_le_thirteen one_le_kMaxNbModuli
      noiseUB := noiseUpperBound 80
      absPerCoordinateBitsize := 20
      secretKey := (standard 2 1 two_le_thirteen one_le_kMaxNbModuli).uniformRandomPoly
        (fun _ i => 5 + i)
      abitMod := fun _ => 0
      abitModShoup := fun _ => 0
      isStandard := standard_isStandard two_le_thirteen one_le_kMaxNbModuli
      secretKey_lt :=
        (standard 2 1 two_le_thirteen one_le_kMaxNbModuli).reduced_uniformRandomPoly _ }

/-- These parameters with the absorption for twenty-nine elements. -/
def fourKeyAbsorbing : NFLLWE := (fourKey.setandgetAbsBitPerCiphertext 29).1

/-- A polynomial whose second stored word is close to twice the modulus. -/
def longPoly (i : ℕ) : ℕ := if i = 1 then 709799 else 0

/-- Twenty-nine elements with one first component, of which the first element selects. -/
def longQuery (j : ℕ) :
    Poly fourKeyAbsorbing.nfl.nbModuli × Poly fourKeyAbsorbing.nfl.nbModuli :=
  fourKeyAbsorbing.constantCipher (fun _ _ => 121766550182589738)
    (2 ^ fourKeyAbsorbing.aBits * (3 : ℕ) + (if j = 0 then 1 else 0 : ℕ))

theorem dataPoly_longPoly : ∀ cm, ∀ cell < 4, fourKeyAbsorbing.dataPoly longPoly cm cell =
    [504783848721, 4611685513642785521, 620335169294873602, 3991350849131760640].getD cell 0 := by
  decide +kernel

/-- The words of the reply as literals. -/
def longReply : Poly fourKeyAbsorbing.nfl.nbModuli × Poly fourKeyAbsorbing.nfl.nbModuli :=
  (fun _ cell => [1811476249407042727, 494366759803259746, 366515469374607814,
      1939327539838709307].getD cell 0,
    fun _ cell => [1870283663965752321, 929926105053839194, 106977677825293945,
      6444035880440049604].getD cell 0)

/-- The words that the reply holds in the end. -/
theorem lazyReply_longQuery : ∀ cm, ∀ cell < fourKeyAbsorbing.nfl.polyDegree,
    (fourKeyAbsorbing.lazyReply 29 (fun _ => fourKeyAbsorbing.dataPoly longPoly) longQuery).1 cm
        cell = longReply.1 cm cell ∧
      (fourKeyAbsorbing.lazyReply 29 (fun _ => fourKeyAbsorbing.dataPoly longPoly) longQuery).2 cm
        cell = longReply.2 cm cell := by
  intro cm cell cell_lt
  rw [(lazyReply_apply 29 _ longQuery cm cell_lt).1, (lazyReply_apply 29 _ longQuery cm cell_lt).2]
  simp only [dataPoly_longPoly cm cell cell_lt]
  revert cm cell
  decide +kernel

theorem not_selects_longQuery :
    setNewParameters 80 (show 2 ≤ 13 by decide) 60 20 (fun _ _ i => 5 + i) = some fourKey ∧
      0 < (fourKey.setandgetAbsBitPerCiphertext 29).2 ∧
      (∀ i < 4, longPoly i < 2 ^ fourKeyAbsorbing.aBits) ∧ 3 ≤ 2 * fourKeyAbsorbing.noiseUB - 2 ∧
      (∀ j < 29, fourKeyAbsorbing.Encrypts (longQuery j) (amplified fourKeyAbsorbing.aBits
        (fun i => if i = 0 then 3 else 0) (if j = 0 then 1 else 0))) ∧
      ¬ fourKeyAbsorbing.Decrypted longPoly (fourKeyAbsorbing.dec (fourKeyAbsorbing.lazyReply 29
        (fun _ => fourKeyAbsorbing.dataPoly longPoly) longQuery)) := by
  refine ⟨rfl, by decide +kernel, by decide +kernel, by decide, ?_, ?_⟩
  · intro j _
    have word_lt : ∀ cm, 121766550182589738 < (fourKeyAbsorbing.nfl.moduli cm).p := by decide
    exact encrypts_amplified fourKeyAbsorbing (fun cm _ _ => word_lt cm) _ _
  · have words : fourKeyAbsorbing.decPhase (fourKeyAbsorbing.lazyReply 29
        (fun _ => fourKeyAbsorbing.dataPoly longPoly) longQuery) =
          fourKeyAbsorbing.decPhase longReply :=
      decPhase_congr lazyReply_longQuery
    rw [dec, words]
    rintro ⟨_, selected⟩
    have first := selected 0 (by decide)
    revert first
    decide +kernel

end NFLLWE

end Xpir
