import Xpir.NFLLWE.Decryption
import Xpir.NFLlib.Accumulation

/-!
# Noise of a reply

This file bounds the noise of a reply computed with the absorption chosen by
`setandgetAbsBitPerCiphertext`. The choice counts sixty bits for each modulus and one
bit of margin, while the moduli are close to sixty-one bits and the noise is up to
twice its bound; `noise_lt_moduliProduct` shows that the margins suffice.
-/

namespace Xpir

open NFLlib

namespace NFLLWE

/-! ## The absorption chosen -/

/-- What the choice of the absorption guarantees. -/
theorem nbrBit_le {modulusBitsize eltNbr noiseUB polyDegree : ℕ}
    (positive : 0 < nbrBit modulusBitsize eltNbr noiseUB polyDegree) :
    2 * (nbrBit modulusBitsize eltNbr noiseUB polyDegree).toNat +
      Nat.clog 2 (eltNbr * noiseUB * polyDegree) + 1 ≤ modulusBitsize := by
  rw [nbrBit] at *
  omega

section Margins

variable {absorbed moduliNbr eltNbr noiseUB size : ℕ}

/-- Twice the largest noise, compared to the quantity the choice keeps small. -/
theorem two_mul_noise_le (noiseUB_pos : 0 < noiseUB) :
    2 * (eltNbr * (size * ((2 ^ absorbed - 1) * (2 ^ absorbed * (2 * noiseUB - 2) + 1)))) ≤
      4 * ((2 ^ absorbed - 1) * (2 ^ absorbed * (eltNbr * noiseUB * size))) := by
  obtain ⟨noise, rfl⟩ := Nat.exists_eq_add_of_le' noiseUB_pos
  have scale_pos := Nat.two_pow_pos absorbed
  have word_le : 2 ^ absorbed * (2 * (noise + 1) - 2) + 1 ≤ 2 * (2 ^ absorbed * (noise + 1)) := by
    rw [show 2 * (noise + 1) - 2 = 2 * noise by omega]
    linarith
  calc 2 * (eltNbr * (size * ((2 ^ absorbed - 1) * (2 ^ absorbed * (2 * (noise + 1) - 2) + 1))))
      ≤ 2 * (eltNbr * (size * ((2 ^ absorbed - 1) * (2 * (2 ^ absorbed * (noise + 1)))))) := by
        gcongr
    _ = 4 * ((2 ^ absorbed - 1) * (2 ^ absorbed * (eltNbr * (noise + 1) * size))) := by ring

variable (chosen : 2 * absorbed + Nat.clog 2 (eltNbr * noiseUB * size) + 1 ≤ 60 * moduliNbr)

include chosen

theorem scaled_le :
    4 * (2 ^ absorbed * (2 ^ absorbed * (eltNbr * noiseUB * size))) ≤ 2 ^ (60 * moduliNbr + 1) := by
  have elements_le := Nat.le_pow_clog (show 1 < 2 by omega) (eltNbr * noiseUB * size)
  calc 4 * (2 ^ absorbed * (2 ^ absorbed * (eltNbr * noiseUB * size)))
      ≤ 4 * (2 ^ absorbed * (2 ^ absorbed * 2 ^ Nat.clog 2 (eltNbr * noiseUB * size))) := by gcongr
    _ = 2 ^ (2 * absorbed + Nat.clog 2 (eltNbr * noiseUB * size) + 1 + 1) := by ring
    _ ≤ 2 ^ (60 * moduliNbr + 1) := Nat.pow_le_pow_right (by omega) (by omega)

/-- With several moduli, the bit that each modulus has in excess is a wide margin. -/
theorem noise_lt_of_several (several : 2 ≤ moduliNbr) (inRange : moduliNbr ≤ kMaxNbModuli)
    (nonempty : 0 < eltNbr * noiseUB * size) :
    4 * ((2 ^ absorbed - 1) * (2 ^ absorbed * (eltNbr * noiseUB * size))) <
      (2 ^ 61 - 2 ^ 23) ^ moduliNbr := by
  have table : ∀ count, count ≤ kMaxNbModuli → 2 ≤ count →
      2 ^ (60 * count + 1) ≤ (2 ^ 61 - 2 ^ 23) ^ count := by
    decide +kernel
  have scale_pos := Nat.two_pow_pos absorbed
  calc 4 * ((2 ^ absorbed - 1) * (2 ^ absorbed * (eltNbr * noiseUB * size)))
      < 4 * (2 ^ absorbed * (2 ^ absorbed * (eltNbr * noiseUB * size))) := by
        have : 0 < 2 ^ absorbed * (eltNbr * noiseUB * size) := by positivity
        gcongr
        omega
    _ ≤ 2 ^ (60 * moduliNbr + 1) := scaled_le chosen
    _ ≤ (2 ^ 61 - 2 ^ 23) ^ moduliNbr := table moduliNbr inRange several

/-- With one modulus, the margin is the fraction of the data below a power of two. -/
theorem noise_lt_of_single (single : moduliNbr = 1) (two_le : 2 ≤ eltNbr * noiseUB * size) :
    4 * ((2 ^ absorbed - 1) * (2 ^ absorbed * (eltNbr * noiseUB * size))) < 2 ^ 61 - 2 ^ 23 := by
  have clog_pos := Nat.clog_pos (show 1 < 2 by omega) two_le
  have absorbed_le : absorbed ≤ 29 := by omega
  have scaled := scaled_le chosen
  rw [single] at scaled
  have scale_pos := Nat.two_pow_pos absorbed
  have rest : 2 ^ absorbed * 2 ^ (61 - absorbed) = 2 ^ 61 := by
    rw [← pow_add, Nat.add_sub_cancel' (by omega)]
  have margin : 2 ^ 32 ≤ 2 ^ (61 - absorbed) := Nat.pow_le_pow_right (by omega) (by omega)
  have fraction : 2 ^ absorbed *
      (4 * ((2 ^ absorbed - 1) * (2 ^ absorbed * (eltNbr * noiseUB * size)))) ≤
        2 ^ absorbed * (2 ^ 61 - 2 ^ (61 - absorbed)) := by
    calc 2 ^ absorbed * (4 * ((2 ^ absorbed - 1) * (2 ^ absorbed * (eltNbr * noiseUB * size))))
        = (2 ^ absorbed - 1) *
            (4 * (2 ^ absorbed * (2 ^ absorbed * (eltNbr * noiseUB * size)))) := by ring
      _ ≤ (2 ^ absorbed - 1) * 2 ^ 61 := Nat.mul_le_mul_left _ scaled
      _ = 2 ^ absorbed * (2 ^ 61 - 2 ^ (61 - absorbed)) := by
          rw [Nat.sub_mul, Nat.mul_sub, rest, one_mul]
  have := Nat.le_of_mul_le_mul_left fraction scale_pos
  omega

end Margins

/-! ## The reply -/

variable (lwe : NFLLWE)

/-- A data polynomial as the server stores it. -/
def dataPoly (data : ℕ → ℕ) : Poly lwe.nfl.nbModuli :=
  lwe.nfl.nttAndPowPhi (fun cm i => data i % (lwe.nfl.moduli cm).p)

/-- Amplified noise plus a constant message. -/
def amplified (absorbed : ℕ) (noise : ℕ → ℕ) (bit i : ℕ) : ℤ :=
  2 ^ absorbed * noise i + if i = 0 then (bit : ℤ) else 0

/-- The negacyclic sum of the products of integer polynomials. -/
def replyPolynomial (size eltNbr : ℕ) (data : ℕ → ℕ → ℕ) (v : ℕ → ℕ → ℤ) (i : ℕ) : ℤ :=
  ∑ j ∈ Finset.range eltNbr, negacyclicMul size (fun i => (data j i : ℤ)) (v j) i

section Reply

variable {lwe} {eltNbr : ℕ} {data : ℕ → ℕ → ℕ} {v : ℕ → ℕ → ℤ}

/-- A data polynomial is stored by its values at the roots. -/
theorem represents_dataPoly (cm : Fin lwe.nfl.nbModuli) (values : ℕ → ℕ) :
    Represents (lwe.nfl.moduli cm).p lwe.nfl.polyDegree (lwe.dataPoly values cm)
      (lwe.transformOf cm (fun i => (values i : ZMod (lwe.nfl.moduli cm).p))) := by
  have words : ∀ i < lwe.nfl.polyDegree, values i % (lwe.nfl.moduli cm).p < 2 ^ 64 := by
    intro i _
    have := Nat.mod_lt (values i) (lwe.nfl.moduli cm).p_pos
    have := (lwe.nfl.moduli cm).p_lt
    omega
  have transformed : Represents (lwe.nfl.moduli cm).p lwe.nfl.polyDegree (lwe.dataPoly values cm)
      (lwe.transformOf cm (fun i =>
        ((values i % (lwe.nfl.moduli cm).p : ℕ) : ZMod (lwe.nfl.moduli cm).p))) :=
    nttAndPowPhi_represents words
  simpa only [ZMod.natCast_mod] using transformed

theorem transformOf_replyPolynomial (cm : Fin lwe.nfl.nbModuli) (cell : ℕ) :
    lwe.transformOf cm (fun i =>
        (replyPolynomial lwe.nfl.polyDegree eltNbr data v i : ZMod (lwe.nfl.moduli cm).p)) cell =
      ∑ j ∈ Finset.range eltNbr,
        lwe.transformOf cm (fun i => (data j i : ZMod (lwe.nfl.moduli cm).p)) cell *
          lwe.transformOf cm (fun i => (v j i : ZMod (lwe.nfl.moduli cm).p)) cell := by
  have halfway := phi_pow (lwe.nfl.moduli cm) lwe.nfl.levels_le
  have reduces : ∀ j i, ((negacyclicMul lwe.nfl.polyDegree (fun i => (data j i : ℤ)) (v j) i : ℤ) :
      ZMod (lwe.nfl.moduli cm).p) = negacyclicMul (2 ^ lwe.nfl.levels)
        (fun i => (data j i : ZMod (lwe.nfl.moduli cm).p))
        (fun i => (v j i : ZMod (lwe.nfl.moduli cm).p)) i := by
    intro j i
    have mapped := map_negacyclicMul (Int.castRingHom (ZMod (lwe.nfl.moduli cm).p))
      lwe.nfl.polyDegree (fun i => (data j i : ℤ)) (v j) i
    simpa [polyDegree] using mapped
  simp only [transformOf, replyPolynomial, Int.cast_sum, reduces]
  rw [negacyclicTransform_sum]
  simp only [negacyclicTransform_negacyclicMul halfway]

end Reply

/-! ## The budget -/

theorem noiseUB_of_setNewParameters {securityBits levels aggregatedModulusBitsize : ℕ}
    {levels_le : levels ≤ 13} {absPCBitsize : ℤ} {rnd : ∀ nbModuli, NFLlib.Poly nbModuli} {lwe : NFLLWE}
    (accepted : setNewParameters securityBits levels_le aggregatedModulusBitsize absPCBitsize
      rnd = some lwe) : lwe.noiseUB = noiseUpperBound securityBits := by
  rw [setNewParameters] at accepted
  split at accepted
  · cases accepted
  · split at accepted
    · rw [← Option.some.inj accepted]
      rfl
    · cases accepted

section Budget

variable {before : NFLLWE} {eltNbr : ℕ}

theorem getmodulusBitsize_le (lwe : NFLLWE) : lwe.nfl.getmodulusBitsize ≤ 1020 := by
  rcases lwe.isStandard with ⟨inRange, _⟩
  rw [getmodulusBitsize, kModulusBitsize]
  rw [kMaxNbModuli] at inRange
  omega

theorem aBits_of_nonneg {lwe : NFLLWE} (nonneg : 0 ≤ lwe.absPerCoordinateBitsize)
    (fits : lwe.nfl.polyDegree * lwe.absPerCoordinateBitsize.toNat < 2 ^ 32) :
    lwe.aBits = lwe.absPerCoordinateBitsize.toNat := by
  rw [aBits, getAbsorptionBitsize, if_neg (by omega), Nat.mod_eq_of_lt fits]
  exact Nat.mul_div_cancel_left _ (Nat.two_pow_pos _)

/-- The absorption used afterwards is the one chosen. -/
theorem aBits_setandgetAbsBitPerCiphertext
    (positive : 0 < (before.setandgetAbsBitPerCiphertext eltNbr).2) :
    (before.setandgetAbsBitPerCiphertext eltNbr).1.aBits =
      (before.setandgetAbsBitPerCiphertext eltNbr).2.toNat := by
  have chosen := nbrBit_le positive
  have bitsize_le := before.getmodulusBitsize_le
  have degree_le : before.nfl.polyDegree ≤ 8192 :=
    Nat.pow_le_pow_right (show 0 < 2 by omega) before.nfl.levels_le
  apply aBits_of_nonneg
  · exact positive.le
  · calc before.nfl.polyDegree * (before.setandgetAbsBitPerCiphertext eltNbr).2.toNat
        ≤ 8192 * 1020 := Nat.mul_le_mul degree_le (by
          simp only [setandgetAbsBitPerCiphertext]
          omega)
      _ < 2 ^ 32 := by omega

theorem nbModuli_pos_of_positive
    (positive : 0 < (before.setandgetAbsBitPerCiphertext eltNbr).2) : 0 < before.nfl.nbModuli := by
  have chosen := nbrBit_le positive
  rw [getmodulusBitsize, kModulusBitsize] at chosen
  omega

theorem two_pow_le_moduliProduct
    (positive : 0 < (before.setandgetAbsBitPerCiphertext eltNbr).2) :
    2 ^ (before.setandgetAbsBitPerCiphertext eltNbr).2.toNat ≤ before.nfl.moduliProduct := by
  have chosen := nbrBit_le positive
  rw [getmodulusBitsize, kModulusBitsize] at chosen
  calc 2 ^ (before.setandgetAbsBitPerCiphertext eltNbr).2.toNat
      ≤ 2 ^ (60 * before.nfl.nbModuli) := by
        apply Nat.pow_le_pow_right (by omega)
        simp only [setandgetAbsBitPerCiphertext, getmodulusBitsize, kModulusBitsize]
        omega
    _ = (2 ^ 60) ^ before.nfl.nbModuli := pow_mul 2 60 _
    _ ≤ (2 ^ 61 - 2 ^ 23) ^ before.nfl.nbModuli := Nat.pow_le_pow_left (by omega) _
    _ ≤ before.nfl.moduliProduct := before.isStandard.moduliProduct_ge

/-- The noise of a reply stays below half the product of the moduli. -/
theorem noise_lt_moduliProduct (eltNbr_pos : 0 < eltNbr) (noiseUB_ge : 2 ≤ before.noiseUB)
    (positive : 0 < (before.setandgetAbsBitPerCiphertext eltNbr).2) {absorbed : ℕ}
    (absorbed_eq : absorbed = (before.setandgetAbsBitPerCiphertext eltNbr).2.toNat) :
    2 * (eltNbr * (before.nfl.polyDegree *
      ((2 ^ absorbed - 1) * (2 ^ absorbed * (2 * before.noiseUB - 2) + 1)))) <
        before.nfl.moduliProduct := by
  have chosen := nbrBit_le positive
  have degree_pos : 0 < before.nfl.polyDegree := Nat.two_pow_pos _
  have product_ge := before.isStandard.moduliProduct_ge
  have moduli_pos := nbModuli_pos_of_positive positive
  rcases before.isStandard with ⟨inRange, _⟩
  simp only [setandgetAbsBitPerCiphertext] at absorbed_eq
  rw [← absorbed_eq, getmodulusBitsize, kModulusBitsize] at chosen
  have elements : eltNbr * before.noiseUB * before.nfl.polyDegree ≥ 1 * 2 * 1 := by
    gcongr <;> omega
  apply lt_of_le_of_lt (two_mul_noise_le (by omega))
  rcases Nat.eq_or_lt_of_le (show 1 ≤ before.nfl.nbModuli from moduli_pos) with single | several
  · have bound := noise_lt_of_single chosen single.symm (by omega)
    rw [← single, pow_one] at product_ge
    omega
  · exact lt_of_lt_of_le (noise_lt_of_several chosen several inRange (by omega)) product_ge

end Budget

section Selection

variable {size eltNbr absorbed noiseUB : ℕ} {data noise : ℕ → ℕ → ℕ} {bit : ℕ → ℕ}

theorem abs_amplified_le {words : ℕ → ℕ} {bit i : ℕ}
    (words_le : words i ≤ 2 * noiseUB - 2) (bit_le : bit ≤ 1) :
    |amplified absorbed words bit i| ≤ (2 ^ absorbed * (2 * noiseUB - 2) + 1 : ℕ) := by
  have scaled : 2 ^ absorbed * words i ≤ 2 ^ absorbed * (2 * noiseUB - 2) :=
    Nat.mul_le_mul_left _ words_le
  have value : amplified absorbed words bit i =
      ((2 ^ absorbed * words i + if i = 0 then bit else 0 : ℕ) : ℤ) := by
    rw [amplified]
    push_cast
    rfl
  rw [value, Nat.abs_cast]
  norm_cast
  split <;> omega

/-- The largest coefficient of a sum of products. -/
theorem abs_replyPolynomial_le
    (data_lt : ∀ j < eltNbr, ∀ i < size, data j i < 2 ^ absorbed)
    (noise_le : ∀ j < eltNbr, ∀ i < size, noise j i ≤ 2 * noiseUB - 2)
    (bit_le : ∀ j < eltNbr, bit j ≤ 1) {i : ℕ} (i_lt : i < size) :
    |replyPolynomial size eltNbr data (fun j => amplified absorbed (noise j) (bit j)) i| ≤
      (eltNbr * (size * ((2 ^ absorbed - 1) * (2 ^ absorbed * (2 * noiseUB - 2) + 1))) : ℕ) := by
  have term_le : ∀ j ∈ Finset.range eltNbr,
      |negacyclicMul size (fun i => (data j i : ℤ)) (amplified absorbed (noise j) (bit j)) i| ≤
        size * (((2 ^ absorbed - 1 : ℕ) : ℤ) * (2 ^ absorbed * (2 * noiseUB - 2) + 1 : ℕ)) := by
    intro j j_mem
    have j_lt := Finset.mem_range.mp j_mem
    apply abs_negacyclicMul_le _ _ i_lt
    · intro i i_lt
      have := data_lt j j_lt i i_lt
      rw [Nat.abs_cast]
      norm_cast
      omega
    · intro i i_lt
      exact abs_amplified_le (noise_le j j_lt i i_lt) (bit_le j j_lt)
  calc |replyPolynomial size eltNbr data (fun j => amplified absorbed (noise j) (bit j)) i|
      ≤ ∑ _j ∈ Finset.range eltNbr, (size : ℤ) *
          (((2 ^ absorbed - 1 : ℕ) : ℤ) * (2 ^ absorbed * (2 * noiseUB - 2) + 1 : ℕ)) :=
        (Finset.abs_sum_le_sum_abs _ _).trans (Finset.sum_le_sum term_le)
    _ = _ := by
        rw [Finset.sum_const, Finset.card_range, nsmul_eq_mul]
        push_cast
        rfl

/-- The amplified noise disappears modulo the amplifier. -/
theorem replyPolynomial_modEq (size eltNbr absorbed : ℕ) (data noise : ℕ → ℕ → ℕ)
    (bit : ℕ → ℕ) (i : ℕ) :
    replyPolynomial size eltNbr data (fun j => amplified absorbed (noise j) (bit j)) i ≡
      replyPolynomial size eltNbr data (fun j i => if i = 0 then (bit j : ℤ) else 0) i
        [ZMOD 2 ^ absorbed] := by
  have power : ((2 ^ absorbed : ℕ) : ℤ) = 2 ^ absorbed := by push_cast; rfl
  have vanishes : (2 : ZMod (2 ^ absorbed)) ^ absorbed = 0 := by
    have self := ZMod.natCast_self (2 ^ absorbed)
    push_cast at self
    exact self
  have residue : ∀ j i, (Int.castRingHom (ZMod (2 ^ absorbed)))
      (amplified absorbed (noise j) (bit j) i) =
        (Int.castRingHom (ZMod (2 ^ absorbed))) (if i = 0 then (bit j : ℤ) else 0) := by
    intro j i
    simp [amplified, vanishes]
  rw [← power, ← ZMod.intCast_eq_intCast_iff, ← eq_intCast (Int.castRingHom _),
    ← eq_intCast (Int.castRingHom _)]
  simp only [replyPolynomial, map_sum, map_negacyclicMul, residue]

/-- Null and constant messages select one data polynomial. -/
theorem replyPolynomial_selected {chosen : ℕ} (chosen_lt : chosen < eltNbr)
    (selects : ∀ j < eltNbr, bit j = if j = chosen then 1 else 0) {i : ℕ} (i_lt : i < size) :
    replyPolynomial size eltNbr data (fun j i => if i = 0 then (bit j : ℤ) else 0) i =
      data chosen i := by
  simp only [replyPolynomial, negacyclicMul_constant _ _ i_lt]
  rw [Finset.sum_eq_single_of_mem chosen (Finset.mem_range.mpr chosen_lt)]
  · simp [selects chosen chosen_lt]
  · intro j j_mem distinct
    simp [selects j (Finset.mem_range.mp j_mem), distinct]

end Selection

end NFLLWE

end Xpir
