import Xpir.NFLLWE.Parameters
import Xpir.Session.QuerySession

/-!
# Parameters that are set again from their text

The client sends what `getSerializedCryptoParams(false)` gives, and the server sets the
parameters of a fresh object of the same class from it. Both then compute the sizes of
keys, queries, plaintexts and replies on their own.

For LWE the sizes are the same, also before an absorption has been chosen, although the
text then becomes a zero. For FV they never are, as its text leaves out the size of the
plaintexts. `roundTrips_iff` states this for the objects that the two operations on
parameters lead to.
-/

namespace Xpir

namespace CryptoMethod

/-- `setNewParameters` on a fresh object of the same class. -/
def setNewParameters (keygen : Keygen) (fields : List (List Char)) :
    CryptoMethod → Option CryptoMethod
  | LWE _ => (LWEParameters.setNewParameters fields).map LWE
  | FV _ => (FVParameters.setNewParameters fields).map FV
  | Paillier _ => (PaillierParameters.setNewParameters keygen fields).map Paillier

/-- The bound of the noise, an `uint64_t`. -/
def noiseUB (securityBits : Int32) : ℕ := 5 * getsecurityBits securityBits % 2 ^ 64 / 2

/-- FV absorbs twelve bits, whatever it has computed before, and Paillier sets nothing. -/
def setandgetAbsBitPerCiphertext (eltNbr : ℕ) : CryptoMethod → CryptoMethod
  | LWE params =>
      LWE { params with
        absPerCoordinateBitsize := Int32.ofInt (NFLLWE.nbrBit (getmodulusBitsizeLWE params) eltNbr
          (noiseUB params.securityBits) params.polyDegree.toNat) }
  | FV params => FV { params with absPerCoordinateBitsize := 12 }
  | Paillier params => Paillier params

/-- The objects that texts and choices of the absorption lead to. -/
inductive Reachable (keygen : Keygen) : CryptoMethod → Prop
  | setNewParameters {text : List Char} {crypto : CryptoMethod}
      (sets : getCryptoMethod keygen text = some crypto) : Reachable keygen crypto
  | setandgetAbsBitPerCiphertext {crypto : CryptoMethod} (eltNbr : ℕ)
      (reachable : Reachable keygen crypto) :
      Reachable keygen (crypto.setandgetAbsBitPerCiphertext eltNbr)

/-! ## Sizes -/

/-- The absorption of the lattice based cryptosystems, null while it is not known. -/
def latticeAbsorption (polyDegree : UInt32) (absPerCoordinateBitsize : Int32) : UInt32 :=
  if absPerCoordinateBitsize.toInt < 0 then 0
  else polyDegree * absPerCoordinateBitsize.toUInt32

/-- What the two ends compute from their objects; not every class has all of it. -/
structure Sizes where
  securityBits : ℕ
  polyDegree : Option UInt32
  modulusBitsize : ℕ
  plaintextBitsize : Option UInt32
  absorptionBitsize : UInt32
  ciphertextBitsize : UInt32
  deriving DecidableEq

def sizes : CryptoMethod → Sizes
  | LWE params =>
      { securityBits := getsecurityBits params.securityBits
        polyDegree := some params.polyDegree
        modulusBitsize := getmodulusBitsizeLWE params
        plaintextBitsize := none
        absorptionBitsize := latticeAbsorption params.polyDegree params.absPerCoordinateBitsize
        ciphertextBitsize := (LWE params).getQuerySizeFromRecLvl 1 }
  | FV params =>
      { securityBits := getsecurityBits params.securityBits
        polyDegree := some params.fvobject.polyDegree
        modulusBitsize := getmodulusBitsizeFV params
        plaintextBitsize := some params.fvobject.plainbits
        absorptionBitsize :=
          latticeAbsorption params.fvobject.polyDegree params.absPerCoordinateBitsize
        ciphertextBitsize := (FV params).getQuerySizeFromRecLvl 1 }
  | Paillier params =>
      { securityBits := params.securityBits.toNat
        polyDegree := none
        modulusBitsize := params.bitKeySize.toNat
        plaintextBitsize := some params.bitKeySize
        absorptionBitsize := params.bitKeySize - 8
        ciphertextBitsize := (Paillier params).getQuerySizeFromRecLvl 1 }

/-- A fresh object is set from the text of another, and gets its sizes. -/
def RoundTrips (keygen : Keygen) (crypto : CryptoMethod) : Prop :=
  ∃ other, setNewParameters keygen (crypto.getSerializedParams.splitOn ':') crypto = some other ∧
    other.sizes = crypto.sizes

/-- Besides the sizes, the fresh object gives the same text. -/
def RoundTripsText (keygen : Keygen) (crypto : CryptoMethod) : Prop :=
  ∃ other, setNewParameters keygen (crypto.getSerializedParams.splitOn ':') crypto = some other ∧
    other.sizes = crypto.sizes ∧ other.getSerializedParams = crypto.getSerializedParams

/-- The objects whose sizes their text tells. -/
def Restored : CryptoMethod → Prop
  | LWE params => -1 ≤ params.securityBits.toInt
  | FV _ => False
  | Paillier _ => True

theorem getCryptoMethod_eq_setNewParameters (keygen : Keygen) (crypto : CryptoMethod) :
    getCryptoMethod keygen crypto.getSerializedParams =
      setNewParameters keygen (crypto.getSerializedParams.splitOn ':') crypto := by
  rw [getCryptoMethod_getSerializedParams, splitOn_getSerializedParams]
  cases crypto <;> rfl

/-- Neither operation changes the key that has been generated. -/
theorem Reachable.configured {keygen : Keygen} {crypto : CryptoMethod}
    (reachable : Reachable keygen crypto) : crypto.Configured := by
  induction reachable with
  | setNewParameters sets => exact configured_of_getCryptoMethod sets
  | @setandgetAbsBitPerCiphertext crypto eltNbr _ configured =>
      cases crypto with
      | LWE params => trivial
      | FV params => trivial
      | Paillier params => exact configured

theorem latticeAbsorption_readAbsorption (polyDegree : UInt32) (absPerCoordinateBitsize : Int32) :
    latticeAbsorption polyDegree (readAbsorption absPerCoordinateBitsize) =
      latticeAbsorption polyDegree absPerCoordinateBitsize := by
  rw [readAbsorption]
  split
  next unset =>
    subst unset
    rw [latticeAbsorption, latticeAbsorption, if_neg (by decide), if_pos (by decide)]
    exact UInt32.mul_zero
  next => rfl

/-- An absorption that reads as the size of the plaintexts is not null. -/
theorem latticeAbsorption_ne {fvobject : FVobject} {absPerCoordinateBitsize : Int32}
    (reads : atoi (absorptionText absPerCoordinateBitsize) = fvobject.plainbits) :
    latticeAbsorption fvobject.polyDegree (-1) ≠
      latticeAbsorption fvobject.polyDegree absPerCoordinateBitsize := by
  have absorption := atoi_absorptionText absPerCoordinateBitsize
  rw [reads] at absorption
  have set : absPerCoordinateBitsize ≠ -1 := by
    rintro rfl
    revert absorption
    cases fvobject <;> decide
  rw [readAbsorption, if_neg set] at absorption
  rw [← absorption]
  cases fvobject <;> decide

/-- The sizes of an LWE object are restored if its security level is. -/
theorem roundTrips_LWE (keygen : Keygen) (params : LWEParameters) :
    (RoundTrips keygen (LWE params) ↔ (LWE params).Restored) := by
  rcases setNewParameters_LWE params with ⟨other, reads, security, degree, nbModuli, absorption⟩
  have sets : setNewParameters keygen ((LWE params).getSerializedParams.splitOn ':')
      (LWE params) = some (LWE other) := by
    rw [splitOn_getSerializedParams, setNewParameters, reads, Option.map_some]
  have same : (LWE other).sizes = (LWE params).sizes ↔ (LWE params).Restored := by
    simp only [sizes, security, degree, getmodulusBitsizeLWE, nbModuli, absorption,
      latticeAbsorption_readAbsorption, getQuerySizeFromRecLvl, Sizes.mk.injEq, and_true,
      getsecurityBits_readSecurityBits_iff, Restored]
  constructor
  · rintro ⟨restored, restores, same_sizes⟩
    rw [sets, Option.some.injEq] at restores
    subst restores
    exact same.mp same_sizes
  · intro restored
    exact ⟨LWE other, sets, same.mpr restored⟩

/-- The fresh FV object, if there is one, has no absorption where the other one has some. -/
theorem not_roundTrips_FV (keygen : Keygen) (params : FVParameters) :
    ¬ RoundTrips keygen (FV params) := by
  rintro ⟨restored, restores, same⟩
  rw [splitOn_getSerializedParams, setNewParameters] at restores
  rcases Option.map_eq_some_iff.mp restores with ⟨other, reads, rfl⟩
  rcases setNewParameters_FV reads with ⟨fvobject_eq, unset, _⟩
  have plainbits := (fvobject_of_setNewParameters reads).1.2.2
  simp only [sizes, fvobject_eq, unset, Sizes.mk.injEq] at same
  rw [fvobject_eq] at plainbits
  exact latticeAbsorption_ne plainbits same.2.2.2.2.1

theorem roundTrips_Paillier (keygen : Keygen) {params : PaillierParameters}
    (configured : (Paillier params).Configured) : RoundTrips keygen (Paillier params) := by
  rcases setNewParameters_Paillier keygen configured.2 with
    ⟨other, reads, security, bitKeySize, initS⟩
  refine ⟨Paillier other, ?_, ?_⟩
  · rw [splitOn_getSerializedParams, setNewParameters, reads, Option.map_some]
  · simp only [sizes, security, bitKeySize, getQuerySizeFromRecLvl, initS, configured.1]

/--
A fresh object gets the sizes of another from its text exactly if that is not FV, and a
security level of LWE is not below minus one. It gives the same text as well if the other
object is described by it, which one of LWE without an absorption is not.
-/
theorem roundTrips_iff (keygen : Keygen) {crypto : CryptoMethod}
    (reachable : Reachable keygen crypto) :
    (RoundTrips keygen crypto ↔ crypto.Restored) ∧
      (RoundTripsText keygen crypto ↔ crypto.Restored ∧ crypto.Described) := by
  have sizes_iff : RoundTrips keygen crypto ↔ crypto.Restored := by
    cases crypto with
    | LWE params => exact roundTrips_LWE keygen params
    | FV params => exact iff_of_false (not_roundTrips_FV keygen params) id
    | Paillier params =>
        exact iff_of_true (roundTrips_Paillier keygen reachable.configured) trivial
  refine ⟨sizes_iff, ?_⟩
  have text := getSerializedParams_getCryptoMethod_iff keygen reachable.configured
  rw [getCryptoMethod_eq_setNewParameters] at text
  rw [← sizes_iff]
  constructor
  · rintro ⟨other, sets, same_sizes, same_text⟩
    rw [sets] at text
    exact ⟨⟨other, sets, same_sizes⟩, text.2.2.mp same_text⟩
  · rintro ⟨⟨other, sets, same_sizes⟩, described⟩
    rw [sets] at text
    exact ⟨other, sets, same_sizes, text.2.2.mpr described⟩

/-- An object of LWE without an absorption gives its sizes to the fresh one. -/
theorem roundTrips_iff_undefined : RoundTrips QuerySession.someKeys
    (LWE ⟨80, 1024, 2, -1, by decide, by decide, by decide, by decide⟩) := by
  have sets : getCryptoMethod QuerySession.someKeys "LWE:80:1024:120".toList =
      some (LWE ⟨80, 1024, 2, -1, by decide, by decide, by decide, by decide⟩) := by rfl
  refine (roundTrips_iff QuerySession.someKeys (.setNewParameters sets)).1.mpr ?_
  simp only [Restored]
  decide

/-- An object of FV that has chosen its absorption. -/
theorem not_roundTrips_absorbing : ∃ crypto, Reachable QuerySession.someKeys crypto ∧
    crypto = FV ⟨80, .FV1024_62, 12, by decide⟩ ∧ ¬ RoundTrips QuerySession.someKeys crypto := by
  have sets : getCryptoMethod QuerySession.someKeys "FV:80:1024:62:14".toList =
      some (FV ⟨80, .FV1024_62, -1, by decide⟩) := by rfl
  exact ⟨_, .setandgetAbsBitPerCiphertext 100 (.setNewParameters sets), rfl,
    not_roundTrips_FV _ _⟩

end CryptoMethod

end Xpir
