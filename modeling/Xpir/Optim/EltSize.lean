import Xpir.ReplyGenerator.LargeReplies
import Xpir.Session.CryptoParams

/-!
# Sizes that the optimizer predicts

The optimizer charges the reply with the size of an element after all levels of the
recursion, in bits. The server counts ciphertexts, and divides numbers of bytes. Both are
modelled in exact arithmetic here, with the integer divisions that the server truncates.

The two agree for all sizes exactly if a plaintext is a whole number of bytes
(`predicts_iff`), as it is for all degrees that parameters are generated for
(`LatticeParameters.predicts`).
-/

namespace Xpir

namespace NFLlib

/-- The smallest degree for which parameters are generated. -/
def kMinPolyDegree : ℕ := 512

end NFLlib

namespace PublicParameters

variable (params : PublicParameters)

section Optimizer

/-- The size of a plaintext at a level, in bits. -/
def Tp (_i : ℕ) : ℚ := params.absorptionBitsize

/-- The size of a ciphertext at a level, in bits. -/
def Tcr (_i : ℕ) : ℚ := params.ciphertextBitsize

/-- The size of an element at a level, for `alpha` elements of `l` bits each. -/
def eltSize (l alpha : ℕ) : ℕ → ℚ
  | 0 => (l * alpha : ℕ)
  | i + 1 => ⌈eltSize l alpha i / params.Tp i⌉₊ * params.Tcr i

/-- What `getReplyGenCost` takes for the number of plaintexts of an element. -/
def plaintextNbrPostNtt (l alpha i : ℕ) : ℕ := ⌈params.eltSize l alpha i / params.Tp i⌉₊

end Optimizer

section Server

/-- A division that is rounded up, not defined for a divisor that is null. -/
def ceilQuotient (x : ℚ) (divisor : ℕ) : Option ℕ :=
  if divisor = 0 then none else some ⌈x / divisor⌉₊

/-- `computeReplySizeInChunks` in exact arithmetic. -/
def replySizeInChunks (d maxFileBytesize alpha : ℕ) : Option ℕ :=
  levelLoop (d - 1)
    (fun out => ceilQuotient (out * params.ciphertextBytesize) params.absorptionBytesize)
    (ceilQuotient (maxFileBytesize * 8 * alpha) params.absorptionBitsize)

/-- The plaintexts of an element that is imported, and of one made of replies. -/
def handledPlaintexts (maxFileBytesize alpha : ℕ) : ℕ → Option ℕ
  | 0 => ceilQuotient (maxFileBytesize * alpha * 8) params.absorptionBitsize
  | i + 1 => (handledPlaintexts maxFileBytesize alpha i).bind fun currentMaxNbPolys =>
      ceilQuotient (currentMaxNbPolys * params.ciphertextBitsize / 8) params.absorptionBytesize

end Server

/-- The optimizer predicts the reply, and the plaintexts of an element at each level. -/
structure Predicts (maxFileBytesize alpha d : ℕ) : Prop where
  reply : ∃ out, params.replySizeInChunks d maxFileBytesize alpha = some out ∧
    params.eltSize (8 * maxFileBytesize) alpha d = out * params.ciphertextBitsize
  plaintexts : ∀ i < d, params.handledPlaintexts maxFileBytesize alpha i =
    some (params.plaintextNbrPostNtt (8 * maxFileBytesize) alpha i)

section Agreement

variable {params} (absorption_pos : 0 < params.absorptionBitsize)
  (whole : 8 ∣ params.absorptionBitsize) (ciphertext : 8 ∣ params.ciphertextBitsize)

theorem ceilQuotient_natCast (numerator : ℕ) {divisor : ℕ} (divisor_pos : 0 < divisor) :
    ceilQuotient numerator divisor = some (numerator ⌈/⌉ divisor) := by
  rw [ceilQuotient, if_neg divisor_pos.ne', natCeil_div numerator divisor_pos]

include whole in
theorem absorptionBitsize_eq : params.absorptionBitsize = 8 * params.absorptionBytesize :=
  (Nat.mul_div_cancel' whole).symm

include ciphertext in
theorem ciphertextBitsize_eq : params.ciphertextBitsize = 8 * params.ciphertextBytesize :=
  (Nat.mul_div_cancel' ciphertext).symm

include absorption_pos whole in
theorem absorptionBytesize_pos : 0 < params.absorptionBytesize := by
  have absorption_eq := absorptionBitsize_eq whole
  omega

include absorption_pos whole in
theorem first_ceilDiv (bytes : ℕ) :
    8 * bytes ⌈/⌉ params.absorptionBitsize = params.plaintexts bytes 0 := by
  rw [absorptionBitsize_eq whole, plaintexts_zero]
  exact mul_ceilDiv_mul (by decide) (absorptionBytesize_pos absorption_pos whole) bytes

include absorption_pos whole ciphertext in
theorem next_ceilDiv (bytes level : ℕ) :
    params.plaintexts bytes level * params.ciphertextBitsize ⌈/⌉ params.absorptionBitsize =
      params.plaintexts bytes (level + 1) := by
  rw [absorptionBitsize_eq whole, ciphertextBitsize_eq ciphertext, Nat.mul_left_comm]
  exact mul_ceilDiv_mul (by decide) (absorptionBytesize_pos absorption_pos whole) _

include absorption_pos whole ciphertext in
/-- At each level, the optimizer counts the plaintexts that the bytes are cut into. -/
theorem plaintextNbrPostNtt_eq (maxFileBytesize alpha level : ℕ) :
    params.plaintextNbrPostNtt (8 * maxFileBytesize) alpha level =
      params.plaintexts (maxFileBytesize * alpha) level := by
  induction level with
  | zero =>
      rw [plaintextNbrPostNtt, eltSize, Tp, natCeil_div _ absorption_pos, Nat.mul_assoc,
        first_ceilDiv absorption_pos whole]
  | succ level ih =>
      have next : params.eltSize (8 * maxFileBytesize) alpha (level + 1) =
          (params.plaintexts (maxFileBytesize * alpha) level * params.ciphertextBitsize : ℕ) := by
        rw [Nat.cast_mul, ← ih]
        rfl
      rw [plaintextNbrPostNtt, next, Tp, natCeil_div _ absorption_pos,
        next_ceilDiv absorption_pos whole ciphertext]

include absorption_pos whole ciphertext in
theorem handledPlaintexts_eq (maxFileBytesize alpha level : ℕ) :
    params.handledPlaintexts maxFileBytesize alpha level =
      some (params.plaintexts (maxFileBytesize * alpha) level) := by
  induction level with
  | zero =>
      rw [handledPlaintexts, ← first_ceilDiv absorption_pos whole,
        ← ceilQuotient_natCast _ absorption_pos]
      congr 1
      push_cast
      ring
  | succ level ih =>
      rw [handledPlaintexts, ih, Option.bind_some, plaintexts,
        ← ceilQuotient_natCast _ (absorptionBytesize_pos absorption_pos whole),
        ciphertextBitsize_eq ciphertext]
      congr 1
      push_cast
      ring

include absorption_pos whole in
theorem replySizeInChunks_eq (d maxFileBytesize alpha : ℕ) :
    params.replySizeInChunks d maxFileBytesize alpha =
      some (params.plaintexts (maxFileBytesize * alpha) (d - 1)) := by
  apply levelLoop_eq
  · rw [← first_ceilDiv absorption_pos whole, ← ceilQuotient_natCast _ absorption_pos]
    congr 1
    push_cast
    ring
  · intro level _
    rw [plaintexts, ← ceilQuotient_natCast _ (absorptionBytesize_pos absorption_pos whole)]
    congr 1
    push_cast
    rfl

include absorption_pos whole ciphertext in
theorem predicts_of_whole {maxFileBytesize alpha d : ℕ} (d_pos : 0 < d) :
    params.Predicts maxFileBytesize alpha d where
  reply := by
    refine ⟨_, replySizeInChunks_eq absorption_pos whole d maxFileBytesize alpha, ?_⟩
    obtain ⟨levels, rfl⟩ : ∃ levels, d = levels + 1 := Nat.exists_eq_succ_of_ne_zero d_pos.ne'
    rw [Nat.add_sub_cancel, ← plaintextNbrPostNtt_eq absorption_pos whole ciphertext]
    rfl
  plaintexts i _ := by
    rw [handledPlaintexts_eq absorption_pos whole ciphertext,
      plaintextNbrPostNtt_eq absorption_pos whole ciphertext]

theorem mul_ceilDiv_self {factor : ℕ} (factor_pos : 0 < factor) (number : ℕ) :
    factor * number ⌈/⌉ factor = number :=
  smul_ceilDiv factor_pos number

include absorption_pos in
/--
Otherwise the server divides by less than a plaintext, and counts more plaintexts on the
second level for an element that is large enough.
-/
theorem not_predicts_of_part (ciphertext_pos : 0 < params.ciphertextBitsize)
    (part : ¬ 8 ∣ params.absorptionBitsize) :
    ¬ params.Predicts (params.absorptionBitsize * (params.absorptionBitsize *
      params.absorptionBytesize)) 1 2 := by
  intro predicts
  have shorter : 8 * params.absorptionBytesize < params.absorptionBitsize := by
    have bytes_eq : params.absorptionBytesize = params.absorptionBitsize / 8 := rfl
    omega
  have first (number : ℕ) : (params.absorptionBitsize * number * 8 : ℕ) ⌈/⌉
      params.absorptionBitsize = 8 * number := by
    rw [Nat.mul_assoc, mul_ceilDiv_self absorption_pos, Nat.mul_comm]
  have predicted : params.plaintextNbrPostNtt (8 * (params.absorptionBitsize *
      (params.absorptionBitsize * params.absorptionBytesize))) 1 1 =
        8 * (params.absorptionBytesize * params.ciphertextBitsize) := by
    have element : params.eltSize (8 * (params.absorptionBitsize *
        (params.absorptionBitsize * params.absorptionBytesize))) 1 1 =
          (params.absorptionBitsize * (8 * (params.absorptionBytesize *
            params.ciphertextBitsize)) : ℕ) := by
      rw [eltSize, eltSize, Tp, natCeil_div _ absorption_pos, Nat.mul_one,
        Nat.mul_comm 8, first]
      push_cast [Tcr]
      ring
    rw [plaintextNbrPostNtt, element, Tp, natCeil_div _ absorption_pos,
      mul_ceilDiv_self absorption_pos]
  have handled := predicts.plaintexts 1 (by decide)
  have imported : ((params.absorptionBitsize * (params.absorptionBitsize *
      params.absorptionBytesize) : ℕ) : ℚ) * ((1 : ℕ) : ℚ) * 8 =
        (params.absorptionBitsize * (params.absorptionBitsize * params.absorptionBytesize) * 8 :
          ℕ) := by
    push_cast
    ring
  rw [predicted, handledPlaintexts, handledPlaintexts, imported,
    ceilQuotient_natCast _ absorption_pos, first, Option.bind_some] at handled
  rcases Nat.eq_zero_or_pos params.absorptionBytesize with null | bytes_pos
  · rw [ceilQuotient, if_pos null] at handled
    exact absurd handled (by simp)
  · have level : ((8 * (params.absorptionBitsize * params.absorptionBytesize) : ℕ) : ℚ) *
        params.ciphertextBitsize / 8 =
          (params.absorptionBytesize * (params.absorptionBitsize * params.ciphertextBitsize) :
            ℕ) := by
      push_cast
      ring
    rw [level, ceilQuotient_natCast _ bytes_pos, mul_ceilDiv_self bytes_pos,
      Option.some.injEq, ← Nat.mul_assoc] at handled
    have same := Nat.eq_of_mul_eq_mul_right ciphertext_pos handled
    omega

/-- The optimizer predicts all replies exactly if a plaintext is a whole number of bytes. -/
theorem predicts_iff (absorption_pos : 0 < params.absorptionBitsize)
    (ciphertext_pos : 0 < params.ciphertextBitsize) (ciphertext : 8 ∣ params.ciphertextBitsize) :
    (∀ maxFileBytesize alpha d, 0 < d → params.Predicts maxFileBytesize alpha d) ↔
      8 ∣ params.absorptionBitsize := by
  constructor
  · intro predicts
    by_contra part
    exact not_predicts_of_part absorption_pos ciphertext_pos part (predicts _ _ _ (by decide))
  · intro whole maxFileBytesize alpha d d_pos
    exact predicts_of_whole absorption_pos whole ciphertext d_pos

end Agreement

end PublicParameters

/-! ## The parameters of the cryptosystems -/

/-- Parameters of a lattice based cryptosystem, with an absorption that has been chosen. -/
structure LatticeParameters where
  poly : PolyShape
  absPerCoordinateBitsize : ℕ
  /-- The degrees are doubled, from the smallest one on. -/
  degree : ∃ doublings, poly.polyDegree = NFLlib.kMinPolyDegree * 2 ^ doublings
  abs_pos : 0 < absPerCoordinateBitsize

namespace LatticeParameters

variable (lattice : LatticeParameters)

def publicParams : PublicParameters where
  absorptionBitsize := lattice.poly.polyDegree * lattice.absPerCoordinateBitsize
  ciphertextBitsize := lattice.poly.getCiphertextBitsize

/-- The three objects of FV have such parameters too. -/
def ofFV (fvobject : FVobject) (absPerCoordinateBitsize : ℕ)
    (abs_pos : 0 < absPerCoordinateBitsize) : LatticeParameters where
  poly :=
    match fvobject with
    | .FV2048_124 => ⟨2048, 2, NFLlib.degree2048_pos, NFLlib.degree2048_le, Nat.two_pos,
        NFLlib.two_le_kMaxNbModuli⟩
    | .FV1024_62 => ⟨1024, 1, NFLlib.degree1024_pos, NFLlib.degree1024_le, Nat.one_pos,
        NFLlib.one_le_kMaxNbModuli⟩
    | .FV2048_62 => ⟨2048, 1, NFLlib.degree2048_pos, NFLlib.degree2048_le, Nat.one_pos,
        NFLlib.one_le_kMaxNbModuli⟩
  absPerCoordinateBitsize := absPerCoordinateBitsize
  degree := by
    cases fvobject
    · exact ⟨2, rfl⟩
    · exact ⟨1, rfl⟩
    · exact ⟨2, rfl⟩
  abs_pos := abs_pos

/-- The optimizer predicts the size of each reply and the plaintexts of each level. -/
theorem predicts (maxFileBytesize alpha : ℕ) {d : ℕ} (d_pos : 0 < d) :
    lattice.publicParams.Predicts maxFileBytesize alpha d := by
  rcases lattice.degree with ⟨doublings, degree_eq⟩
  have ciphertext_eq := lattice.poly.getCiphertextBitsize_eq
  apply PublicParameters.predicts_of_whole
  · exact Nat.mul_pos lattice.poly.polyDegree_pos lattice.abs_pos
  · apply Dvd.dvd.mul_right
    rw [degree_eq]
    exact Dvd.dvd.mul_right (by decide) _
  · rw [publicParams, ciphertext_eq]
    exact Dvd.dvd.mul_right (by decide) _
  · exact d_pos

/-- A reply for five files of 1000 bytes on two levels. -/
theorem predicts_five :
    (ofFV .FV1024_62 12 (by decide)).publicParams.Predicts 1000 5 2 :=
  predicts _ 1000 5 (by decide)

end LatticeParameters

end Xpir
