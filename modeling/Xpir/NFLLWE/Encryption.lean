import Xpir.NFLLWE.Parameters

/-!
# Encryption

This file contains the internal encryption of a polynomial, and what the
difference between the two components of a ciphertext stands for.

A ciphertext is meant to hide the message behind noise multiplied by a power of
two. The amplifiers left by `recomputeNoiseAmplifiers` are null, so no noise is
added at all (`enc_phase`) and an encryption does not depend on its noise
(`enc_noise_irrelevant`).
-/

namespace Xpir

open NFLlib

namespace NFLLWE

/-- A noise word, amplified and added to a word of the message. -/
def noisyWord (noise message abit abitShoup p : ℕ) : ℕ :=
  let word := mulmodShoup noise abit abitShoup p
  let word := addmod word message p
  if p < word then word - p else word

variable (lwe : NFLLWE)

/-- The noise of an encryption. -/
def encryptionNoise (rnd : ℕ → ℕ) : Poly lwe.nfl.nbModuli :=
  lwe.nfl.boundedRandomPoly (wordSub (2 * lwe.noiseUB) 1) rnd

/-- The noise, amplified and added to the message. -/
def noisyPoly (m : Poly lwe.nfl.nbModuli) (rndNoise : ℕ → ℕ) : Poly lwe.nfl.nbModuli := fun cm =>
  forLoop lwe.nfl.polyDegree (fun i b => Function.update b i
    (noisyWord (b i) (m cm i) (lwe.abitMod cm) (lwe.abitModShoup cm) (lwe.nfl.moduli cm).p))
    (lwe.encryptionNoise rndNoise cm)

/--
The encryption of a polynomial, from the random words of its noise and those of
its uniform component.
-/
def enc (m : Poly lwe.nfl.nbModuli) (rndNoise : ℕ → ℕ) (rndUniform : Poly lwe.nfl.nbModuli) :
    Poly lwe.nfl.nbModuli × Poly lwe.nfl.nbModuli :=
  let transformed := lwe.nfl.nttAndPowPhi (lwe.noisyPoly m rndNoise)
  let uniform := lwe.nfl.uniformRandomPoly rndUniform
  let a : Poly lwe.nfl.nbModuli := fun cm =>
    forLoop lwe.nfl.polyDegree (fun i a => Function.update a i (a i % (lwe.nfl.moduli cm).p))
      (uniform cm)
  let b : Poly lwe.nfl.nbModuli := fun cm =>
    let p := (lwe.nfl.moduli cm).p
    forLoop lwe.nfl.polyDegree (fun i b => Function.update b i
      (mulandaddShoup (b i) (uniform cm i) (lwe.secretKey cm i)
        (shoupQuotient (lwe.secretKey cm i) p) p % p)) (transformed cm)
  (a, b)

/-- What a ciphertext holds once the secret is removed. -/
def phase (cipher : Poly lwe.nfl.nbModuli × Poly lwe.nfl.nbModuli) (cm : Fin lwe.nfl.nbModuli)
    (cell : ℕ) : ZMod (lwe.nfl.moduli cm).p :=
  cipher.2 cm cell - cipher.1 cm cell * lwe.secretKey cm cell

/-- The values of an integer polynomial at the roots of `X ^ polyDegree + 1`. -/
def transformOf (cm : Fin lwe.nfl.nbModuli) (values : ℕ → ZMod (lwe.nfl.moduli cm).p) :
    ℕ → ZMod (lwe.nfl.moduli cm).p :=
  negacyclicTransform (phi (lwe.nfl.moduli cm) lwe.nfl.levels) lwe.nfl.levels values

/-- Encryption adds noise multiplied by `2 ^ aBits`. -/
structure AmplifiesNoise : Prop where
  amplifier : ∀ cm, lwe.abitMod cm = 2 ^ lwe.aBits % (lwe.nfl.moduli cm).p
  quotient : ∀ cm, lwe.abitModShoup cm = lwe.abitMod cm * 2 ^ 64 / (lwe.nfl.moduli cm).p
  noisy : ∀ m, lwe.nfl.Reduced m → ∀ rndNoise rndUniform cm, ∀ cell < lwe.nfl.polyDegree,
    lwe.phase (lwe.enc m rndNoise rndUniform) cm cell = lwe.transformOf cm
      (fun i => 2 ^ lwe.aBits * (lwe.encryptionNoise rndNoise cm i : ZMod (lwe.nfl.moduli cm).p) +
        (m cm i : ZMod (lwe.nfl.moduli cm).p)) cell
  distinct : ∀ m, lwe.nfl.Reduced m → ∀ rndNoise rndNoise' rndUniform cm,
    ∀ i < lwe.nfl.polyDegree, lwe.encryptionNoise rndNoise cm i ≠ lwe.encryptionNoise rndNoise' cm i →
      lwe.enc m rndNoise rndUniform ≠ lwe.enc m rndNoise' rndUniform

/-- The states left by the two operations that change the parameters. -/
inductive Configured : NFLLWE → Prop
  | setNewParameters {securityBits levels aggregatedModulusBitsize : ℕ} {levels_le : levels ≤ 13}
      {absPCBitsize : ℤ} {rnd : ∀ nbModuli, NFLlib.Poly nbModuli} {lwe : NFLLWE}
      (accepted : setNewParameters securityBits levels_le aggregatedModulusBitsize absPCBitsize
        rnd = some lwe) : Configured lwe
  | setandgetAbsBitPerCiphertext (before : NFLLWE) (eltNbr : ℕ) :
      Configured (before.setandgetAbsBitPerCiphertext eltNbr).1

/-- Both operations end with the recomputation of the amplifiers. -/
theorem Configured.exists_recompute {lwe : NFLLWE} (configured : Configured lwe) :
    ∃ before : NFLLWE, lwe = before.recomputeNoiseAmplifiers := by
  cases configured with
  | setNewParameters accepted =>
      rw [NFLLWE.setNewParameters] at accepted
      split at accepted
      · cases accepted
      · split at accepted
        · exact ⟨_, (Option.some.inj accepted).symm⟩
        · cases accepted
  | setandgetAbsBitPerCiphertext before eltNbr => exact ⟨_, rfl⟩

section Configured

variable {lwe} (configured : Configured lwe)

include configured

theorem Configured.abitMod_eq (cm : Fin lwe.nfl.nbModuli) : lwe.abitMod cm = 0 := by
  rcases configured.exists_recompute with ⟨before, rfl⟩
  exact before.recomputeNoiseAmplifiers_abitMod cm

theorem Configured.abitModShoup_eq (cm : Fin lwe.nfl.nbModuli) : lwe.abitModShoup cm = 0 := by
  rcases configured.exists_recompute with ⟨before, rfl⟩
  exact before.recomputeNoiseAmplifiers_abitModShoup cm

end Configured

/-- With null amplifiers, a word keeps the residue of the message. -/
theorem cast_noisyWord_zero {message p : ℕ} (noise : ℕ) (message_lt : message < 2 ^ 64) :
    noisyWord noise message 0 0 p < 2 ^ 64 ∧
      (noisyWord noise message 0 0 p : ZMod p) = message := by
  have null : mulmodShoup noise 0 0 p = 0 := by
    simp [mulmodShoup, shoupDifference, wordSub]
  have sum : (addmod 0 message p : ZMod p) = message := by
    rw [cast_addmod (by omega), Nat.cast_zero, zero_add]
  have bound : addmod 0 message p < 2 ^ 64 := by
    rw [addmod_of_lt (by omega)]
    split <;> omega
  simp only [noisyWord, null]
  split
  · next exceeds =>
      rw [Nat.cast_sub exceeds.le, sum, ZMod.natCast_self, sub_zero]
      exact ⟨by omega, rfl⟩
  · exact ⟨bound, sum⟩

theorem noisyPoly_apply (m : Poly lwe.nfl.nbModuli) (rndNoise : ℕ → ℕ)
    (cm : Fin lwe.nfl.nbModuli) {i : ℕ} (i_lt : i < lwe.nfl.polyDegree) :
    lwe.noisyPoly m rndNoise cm i = noisyWord (lwe.encryptionNoise rndNoise cm i) (m cm i)
      (lwe.abitMod cm) (lwe.abitModShoup cm) (lwe.nfl.moduli cm).p := by
  rw [noisyPoly, forLoop_update_apply lwe.nfl.polyDegree (fun i word => noisyWord word (m cm i)
    (lwe.abitMod cm) (lwe.abitModShoup cm) (lwe.nfl.moduli cm).p), if_pos i_lt]

/-- The multiple of the secret added last is the one the phase removes. -/
theorem phase_enc {m : Poly lwe.nfl.nbModuli} {rndNoise : ℕ → ℕ}
    (rndUniform : Poly lwe.nfl.nbModuli) {cm : Fin lwe.nfl.nbModuli}
    (words : ∀ i < lwe.nfl.polyDegree, lwe.noisyPoly m rndNoise cm i < 2 ^ 64)
    {cell : ℕ} (cell_lt : cell < lwe.nfl.polyDegree) :
    lwe.phase (lwe.enc m rndNoise rndUniform) cm cell =
      lwe.transformOf cm
        (fun i => (lwe.noisyPoly m rndNoise cm i : ZMod (lwe.nfl.moduli cm).p)) cell := by
  have p_lt := (lwe.nfl.moduli cm).p_lt
  have transformed := nttAndPowPhi_represents words cell cell_lt
  have uniform_lt := lwe.nfl.reduced_uniformRandomPoly rndUniform cm cell cell_lt
  have secret_lt := lwe.secretKey_lt cm cell cell_lt
  have added := shoupDifference_lt p_lt (show lwe.nfl.uniformRandomPoly rndUniform cm cell < 2 ^ 64
    by omega) secret_lt
  have word_lt := transformed.1
  simp only [phase, enc]
  rw [forLoop_update_apply lwe.nfl.polyDegree (fun _ word => word % (lwe.nfl.moduli cm).p),
    if_pos cell_lt, forLoop_update_apply lwe.nfl.polyDegree (fun i word => mulandaddShoup word
      (lwe.nfl.uniformRandomPoly rndUniform cm i) (lwe.secretKey cm i)
      (shoupQuotient (lwe.secretKey cm i) (lwe.nfl.moduli cm).p) (lwe.nfl.moduli cm).p %
        (lwe.nfl.moduli cm).p), if_pos cell_lt, ZMod.natCast_mod, ZMod.natCast_mod,
    cast_mulandaddShoup p_lt (by omega) secret_lt (by omega), transformed.2, transformOf]
  ring

theorem enc_snd_lt (m : Poly lwe.nfl.nbModuli) (rndNoise : ℕ → ℕ)
    (rndUniform : Poly lwe.nfl.nbModuli) (cm : Fin lwe.nfl.nbModuli) {cell : ℕ}
    (cell_lt : cell < lwe.nfl.polyDegree) :
    (lwe.enc m rndNoise rndUniform).2 cm cell < (lwe.nfl.moduli cm).p := by
  simp only [enc]
  rw [forLoop_update_apply lwe.nfl.polyDegree (fun i word => mulandaddShoup word
    (lwe.nfl.uniformRandomPoly rndUniform cm i) (lwe.secretKey cm i)
    (shoupQuotient (lwe.secretKey cm i) (lwe.nfl.moduli cm).p) (lwe.nfl.moduli cm).p %
      (lwe.nfl.moduli cm).p), if_pos cell_lt]
  exact Nat.mod_lt _ (lwe.nfl.moduli cm).p_pos

section Configured

variable {lwe} (configured : Configured lwe)

include configured

theorem Configured.noisyPoly_word {m : Poly lwe.nfl.nbModuli} {cm : Fin lwe.nfl.nbModuli}
    {i : ℕ} (i_lt : i < lwe.nfl.polyDegree) (m_lt : m cm i < 2 ^ 64) (rndNoise : ℕ → ℕ) :
    lwe.noisyPoly m rndNoise cm i < 2 ^ 64 ∧
      (lwe.noisyPoly m rndNoise cm i : ZMod (lwe.nfl.moduli cm).p) = m cm i := by
  rw [lwe.noisyPoly_apply m rndNoise cm i_lt, configured.abitMod_eq, configured.abitModShoup_eq]
  exact cast_noisyWord_zero _ m_lt

/-- A ciphertext hides nothing but the message. -/
theorem Configured.phase_enc {m : Poly lwe.nfl.nbModuli} {cm : Fin lwe.nfl.nbModuli}
    (m_lt : ∀ i < lwe.nfl.polyDegree, m cm i < 2 ^ 64) (rndNoise : ℕ → ℕ)
    (rndUniform : Poly lwe.nfl.nbModuli) {cell : ℕ} (cell_lt : cell < lwe.nfl.polyDegree) :
    lwe.phase (lwe.enc m rndNoise rndUniform) cm cell =
      lwe.transformOf cm (fun i => (m cm i : ZMod (lwe.nfl.moduli cm).p)) cell := by
  rw [lwe.phase_enc rndUniform
    (fun i i_lt => (configured.noisyPoly_word i_lt (m_lt i i_lt) rndNoise).1) cell_lt]
  apply negacyclicTransform_congr
  intro i i_lt
  exact (configured.noisyPoly_word i_lt (m_lt i i_lt) rndNoise).2

/-- Encryptions with different noise coincide. -/
theorem Configured.enc_noise {m : Poly lwe.nfl.nbModuli} {cm : Fin lwe.nfl.nbModuli}
    (m_lt : ∀ i < lwe.nfl.polyDegree, m cm i < 2 ^ 64) (rndNoise rndNoise' : ℕ → ℕ)
    (rndUniform : Poly lwe.nfl.nbModuli) {cell : ℕ} (cell_lt : cell < lwe.nfl.polyDegree) :
    (lwe.enc m rndNoise rndUniform).1 cm cell = (lwe.enc m rndNoise' rndUniform).1 cm cell ∧
      (lwe.enc m rndNoise rndUniform).2 cm cell =
        (lwe.enc m rndNoise' rndUniform).2 cm cell := by
  have phases : lwe.phase (lwe.enc m rndNoise rndUniform) cm cell =
      lwe.phase (lwe.enc m rndNoise' rndUniform) cm cell := by
    rw [configured.phase_enc m_lt rndNoise rndUniform cell_lt,
      configured.phase_enc m_lt rndNoise' rndUniform cell_lt]
  have uniform : (lwe.enc m rndNoise rndUniform).1 = (lwe.enc m rndNoise' rndUniform).1 := rfl
  refine ⟨by rw [uniform], ?_⟩
  rw [phase, phase, uniform, sub_left_inj] at phases
  have residues := (ZMod.natCast_eq_natCast_iff' _ _ _).mp phases
  rwa [Nat.mod_eq_of_lt (lwe.enc_snd_lt m rndNoise rndUniform cm cell_lt),
    Nat.mod_eq_of_lt (lwe.enc_snd_lt m rndNoise' rndUniform cm cell_lt)] at residues

/--
The amplifiers are null instead of a power of two modulo each modulus. As a
consequence no encryption of a polynomial contains any noise, and encryptions
that differ by their noise only are equal.
-/
theorem Configured.not_amplifiesNoise (nbModuli_pos : 0 < lwe.nfl.nbModuli) :
    (∀ cm, lwe.abitMod cm ≠ 2 ^ lwe.aBits % (lwe.nfl.moduli cm).p) ∧
      (∀ m, lwe.nfl.Reduced m → ∀ rndNoise rndUniform cm, ∀ cell < lwe.nfl.polyDegree,
        lwe.phase (lwe.enc m rndNoise rndUniform) cm cell =
          lwe.transformOf cm (fun i => (m cm i : ZMod (lwe.nfl.moduli cm).p)) cell) ∧
      (∀ m, lwe.nfl.Reduced m → ∀ rndNoise rndNoise' rndUniform cm, ∀ cell < lwe.nfl.polyDegree,
        (lwe.enc m rndNoise rndUniform).1 cm cell = (lwe.enc m rndNoise' rndUniform).1 cm cell ∧
          (lwe.enc m rndNoise rndUniform).2 cm cell =
            (lwe.enc m rndNoise' rndUniform).2 cm cell) ∧
      ¬ lwe.AmplifiesNoise := by
  have null : ∀ cm, lwe.abitMod cm ≠ 2 ^ lwe.aBits % (lwe.nfl.moduli cm).p := by
    intro cm
    rw [configured.abitMod_eq cm]
    exact ((lwe.nfl.moduli cm).two_pow_mod_ne_zero lwe.aBits).symm
  have words : ∀ m, lwe.nfl.Reduced m → ∀ cm, ∀ i < lwe.nfl.polyDegree, m cm i < 2 ^ 64 := by
    intro m reduced cm i i_lt
    have := reduced cm i i_lt
    have := (lwe.nfl.moduli cm).p_lt
    omega
  refine ⟨null, ?_, ?_, ?_⟩
  · intro m reduced rndNoise rndUniform cm cell cell_lt
    exact configured.phase_enc (words m reduced cm) rndNoise rndUniform cell_lt
  · intro m reduced rndNoise rndNoise' rndUniform cm cell cell_lt
    exact configured.enc_noise (words m reduced cm) rndNoise rndNoise' rndUniform cell_lt
  · intro amplifies
    exact null ⟨0, nbModuli_pos⟩ (amplifies.amplifier ⟨0, nbModuli_pos⟩)

end Configured

/-- A key of degree 512 with one modulus and 20 bits absorbed by each coefficient. -/
def smallKey : NFLLWE :=
  recomputeNoiseAmplifiers
    { nfl := standard 9 1 (by decide) (by decide)
      noiseUB := noiseUpperBound 80
      absPerCoordinateBitsize := 20
      secretKey := (standard 9 1 (by decide) (by decide)).uniformRandomPoly (fun _ _ => 1)
      abitMod := fun _ => 0
      abitModShoup := fun _ => 0
      isStandard := standard_isStandard (by decide) (by decide)
      secretKey_lt := (standard 9 1 (by decide) (by decide)).reduced_uniformRandomPoly _ }

theorem configured_smallKey : Configured smallKey :=
  Configured.setNewParameters (show setNewParameters 80 (show 9 ≤ 13 by decide) 60 20
    (fun _ _ _ => 1) = some smallKey from rfl)

theorem not_amplifiesNoise_smallKey : ¬ smallKey.AmplifiesNoise :=
  (configured_smallKey.not_amplifiesNoise (by decide)).2.2.2

theorem smallKey_encrypts_without_noise :
    setNewParameters 80 (show 9 ≤ 13 by decide) 60 20 (fun _ _ _ => 1) = some smallKey ∧
      smallKey.aBits = 20 ∧ smallKey.abitMod ⟨0, by decide⟩ = 0 ∧
      2 ^ 20 % (smallKey.nfl.moduli ⟨0, by decide⟩).p = 1048576 ∧ ¬ smallKey.AmplifiesNoise := by
  refine ⟨rfl, by decide, ?_, by decide, ?_⟩
  · exact recomputeNoiseAmplifiers_abitMod _ _
  · intro amplifies
    have amplifier := amplifies.amplifier ⟨0, by decide⟩
    rw [configured_smallKey.abitMod_eq] at amplifier
    revert amplifier
    decide

end NFLLWE

end Xpir
