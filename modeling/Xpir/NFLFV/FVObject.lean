import Xpir.Foundations.WordMemory
import Xpir.NFLFV.FV
import Xpir.NFLFV.Masks
import Xpir.NFLLWE.Decryption
import Xpir.NFLlib.Bitsplitter

/-!
# The objects behind `NFLFV`

The cryptosystem leaves its work to one of three classes, which differ in their parameters.
A plaintext has one slot for each coefficient: the values of the plaintext polynomial at the
roots modulo `t`. Products of polynomials are products of slots.

The two classes with one modulus multiply the slots with a mask. They read it from two files:
from `mask2.txt` the mask itself, and from `mask.txt` the polynomial with these slots.
-/

namespace Xpir.Nfl

namespace FV

variable (fv : FV)

section Model

/-- The modulus of the plaintexts. -/
def first : Fin fv.polyP_p.nmoduli := (0 : Fin 1)

/-- The polynomial in the words at a pointer. -/
def transformtopolyp (p : ℕ → ℕ) : fv.poly_p.poly := fv.poly_p.setAll p

def transformtopolyPp (p : ℕ → ℕ) : fv.polyP_p.poly := fv.polyP_p.setAll p

/-- The copy of a plaintext polynomial, with its words for all moduli. -/
def copyPp (Pp : fv.polyP_p.poly) : fv.poly_p.poly := fun _ k => ((Pp fv.first k).val : ℕ)

/-- The words of a polynomial, modulus by modulus. -/
def memoryWord (p : fv.poly_p.poly) : ℕ → ℕ := rowWord fv.degree fun cm i => (p cm i).val

/-- The polynomial whose slots are given, in NTT form. -/
def encodeSlots (slots : fv.polyP_p.poly) : fv.poly_p.poly :=
  fv.poly_p.ntt_pow_phi (fv.copyPp (fv.polyP_p.invntt_pow_invphi slots))

end Model

/-- The slots of a polynomial, whose coefficients are residues modulo `t`. -/
def Carries (p : fv.poly_p.poly) (slots : fv.polyP_p.poly) : Prop :=
  ∃ m : ℕ → ℤ, fv.poly_p.Transforms p m ∧ (∀ i < fv.degree, 0 ≤ m i ∧ m i < fv.t) ∧
    fv.polyP_p.Transforms slots m

section Slots

variable {fv}

theorem p_neZero : NeZero fv.t := ⟨(Nat.zero_lt_of_lt fv.plain.one_lt).ne'⟩

theorem eq_first (cm : Fin fv.polyP_p.nmoduli) : cm = fv.first :=
  @Subsingleton.elim (Fin 1) _ cm 0

/-- The coefficients of the polynomial with some slots. -/
def slotCoefficients (slots : fv.polyP_p.poly) (i : ℕ) : ℤ :=
  (fv.polyP_p.invntt_pow_invphi slots fv.first i).val

theorem slotCoefficients_range (slots : fv.polyP_p.poly) (i : ℕ) :
    0 ≤ slotCoefficients slots i ∧ slotCoefficients slots i < fv.t := by
  have positive : NeZero fv.t := p_neZero
  exact ⟨Int.natCast_nonneg _, Int.ofNat_lt.mpr (ZMod.val_lt (n := fv.t) _)⟩

theorem transforms_slotCoefficients (slots : fv.polyP_p.poly) :
    fv.polyP_p.Transforms slots (slotCoefficients slots) := by
  have positive : NeZero fv.t := p_neZero
  intro cm cell cell_lt
  rw [eq_first cm, ← PolyType.negacyclicTransform_invntt_pow_invphi slots fv.first cell_lt]
  apply negacyclicTransform_congr
  intro i _
  exact ((Int.cast_natCast _).trans (ZMod.natCast_zmod_val (n := fv.t) _)).symm

theorem copyPp_invntt_pow_invphi (slots : fv.polyP_p.poly) (cm : Fin fv.poly_p.nmoduli) (i : ℕ) :
    fv.copyPp (fv.polyP_p.invntt_pow_invphi slots) cm i = slotCoefficients slots i :=
  (Int.cast_natCast _).symm

theorem transforms_encodeSlots (slots : fv.polyP_p.poly) :
    fv.poly_p.Transforms (fv.encodeSlots slots) (slotCoefficients slots) :=
  PolyType.transforms_ntt fun cm i _ => copyPp_invntt_pow_invphi slots cm i

theorem carries_encodeSlots (slots : fv.polyP_p.poly) :
    fv.Carries (fv.encodeSlots slots) slots :=
  ⟨_, transforms_encodeSlots slots, fun i _ => slotCoefficients_range slots i,
    transforms_slotCoefficients slots⟩

theorem memoryWord_position (p : fv.poly_p.poly) (cm : Fin fv.poly_p.nmoduli) {i : ℕ}
    (i_lt : i < fv.degree) : fv.memoryWord p (cm * fv.degree + i) = (p cm i).val :=
  rowWord_position _ cm i_lt

theorem memoryWord_lt (p : fv.poly_p.poly) (index : ℕ) :
    fv.memoryWord p index < 2 ^ fv.poly_p.T.bits := by
  apply rowWord_lt (Nat.two_pow_pos _)
  intro cm i
  have positive : NeZero (fv.poly_p.params cm).p := ⟨(PolyType.p_pos cm).ne'⟩
  have p_lt := (fv.poly_p.params cm).p_lt
  have val_lt := (p cm i).val_lt
  omega

/-- A polynomial is read as it was written. -/
theorem transformtopolyp_eq {p : fv.poly_p.poly} {word : ℕ → ℕ}
    (stored : ∀ index < fv.poly_p.nmoduli * fv.degree, word index = fv.memoryWord p index)
    (cm : Fin fv.poly_p.nmoduli) {i : ℕ} (i_lt : i < fv.degree) :
    fv.transformtopolyp word cm i = p cm i := by
  have positive : NeZero (fv.poly_p.params cm).p := ⟨(PolyType.p_pos cm).ne'⟩
  rw [transformtopolyp, PolyType.setAll]
  change ((word (cm * fv.degree + i) : ℕ) : ZMod (fv.poly_p.params cm).p) = _
  rw [stored _ (rowPosition_lt cm i_lt), memoryWord_position p cm i_lt, ZMod.natCast_zmod_val]

end Slots

end FV

/-- The words that are read from `mask.txt` and `mask2.txt`. -/
structure Masks where
  mask : ℕ → ℕ
  mask2 : ℕ → ℕ

/-! ## The classes -/

/-- An object of one of the classes. Those with masks have one modulus. -/
structure FVobject where
  fv : FV
  masks : Option Masks
  moduli_pos : 0 < fv.poly_p.nmoduli
  moduli_le : fv.poly_p.nmoduli ≤ 2
  single : masks.isSome = true → fv.poly_p.nmoduli = 1
  words64 : fv.poly_p.T = .uint64
  levels_ge : 3 ≤ fv.poly_p.levels
  levels_le : fv.poly_p.levels ≤ 13
  plain_ge : 2 ^ NFLFV.absorptionBits ≤ fv.t
  plain_lt : fv.t < 2 ^ 32

namespace FVobject

variable (object : FVobject)

abbrev poly : Type := object.fv.poly_p.poly

/-- The polynomials of an `lwe_cipher`. -/
abbrev Cipher : Type := object.poly × object.poly

section Model

variable {object} (keys : object.fv.Keys)

def transformtoFV_cipher (c : object.Cipher) : object.fv.ciphertext_t := ⟨c.1, c.2, false⟩

/-- The polynomials that are copied out of a ciphertext. -/
def copyOut (c_t : object.fv.ciphertext_t) : object.Cipher := (c_t.c0, c_t.c1)

def enc (coins : FV.Coins) (m : ℕ → ℕ) : object.Cipher :=
  copyOut (FV.encrypt_poly keys coins (object.fv.transformtopolyp m))

/-- The classes with masks take the words for slots, the other one for coefficients. -/
def encNTT (coins : FV.Coins) (m : ℕ → ℕ) : object.Cipher :=
  match object.masks with
  | some _ =>
      let m_t1 := object.fv.polyP_p.invntt_pow_invphi (object.fv.transformtopolyPp m)
      copyOut (FV.encrypt_poly keys coins (object.fv.copyPp m_t1))
  | none => copyOut (FV.encrypt_poly keys coins (object.fv.transformtopolyp m))

/-- `ceil(nbrbit/32)`. -/
def combien : ℕ := (NFLFV.absorptionBits + 31) / 32

def dec (c : object.Cipher) : ℕ → ℕ :=
  let polym := FV.decrypt_poly keys (transformtoFV_cipher c)
  let p2 := object.fv.polyP_p.ntt_pow_phi (object.fv.polyP_p.mpz2poly polym)
  forLoop object.fv.degree
    (fun i m => mpzExport32 m (i * combien) (object.fv.polyP_p.poly2mpz p2 i)) fun _ => 0

def sub (op1 op2 : object.Cipher) : object.Cipher :=
  copyOut ((transformtoFV_cipher op1).sub (transformtoFV_cipher op2))

def mulandadd (rop : object.Cipher) (op1 : object.poly) (op2 : object.Cipher) : object.Cipher :=
  copyOut (FV.mulandadd (transformtoFV_cipher rop) op1 (transformtoFV_cipher op2))

/-- The class without masks does nothing. -/
def mulrdm (rop : object.Cipher) : object.Cipher :=
  match object.masks with
  | some masks =>
      copyOut ((transformtoFV_cipher rop).mul (object.fv.transformtopolyp masks.mask))
  | none => rop

/-- The slots of an imported polynomial, with the mask for those of the database. -/
def maskSlots (first_ : ℕ) (Pp : object.fv.polyP_p.poly) : object.fv.polyP_p.poly :=
  match object.masks with
  | some masks => if first_ = 1 then Pp * object.fv.transformtopolyPp masks.mask2 else Pp
  | none => Pp

/-- The polynomial that a row of words is made into. -/
def importSlots (first_ : ℕ) (deserData : ℕ → ℕ) : object.poly :=
  object.fv.encodeSlots (maskSlots first_ (object.fv.polyP_p.set deserData))

end Model

theorem degree_le (object : FVobject) : object.fv.degree ≤ NFLlib.kMaxPolyDegree :=
  Nat.pow_le_pow_right Nat.two_pos object.levels_le

theorem few_moduli (object : FVobject) : object.fv.poly_p.nmoduli ≤ NFLlib.kMaxNbModuli :=
  object.moduli_le.trans (by decide)

/-- What `bitsplit` is constructed with. -/
def bitsplit : PolyShape where
  polyDegree := object.fv.degree
  nbModuli := object.fv.poly_p.nmoduli
  polyDegree_pos := PolyType.degree_pos
  polyDegree_le := object.degree_le
  nbModuli_pos := object.moduli_pos
  nbModuli_le := object.few_moduli

/-- The words of a polynomial. -/
def polyWords : ℕ := object.fv.poly_p.nmoduli * object.fv.degree

/-- The words of the polynomials that some buffers are cut into. -/
def deserializeDataNFL (fuel : ℕ) (shape : SplitShape) (inArrayOfBuffers : ℕ → ℤ → UInt8)
    (first_ : ℕ) : Option (ℕ → ℕ) :=
  (object.bitsplit.bitsplitter shape fuel inArrayOfBuffers).bind fun deserData =>
    counterLoop (2 ^ 32) fuel (object.bitsplit.polyNumber shape)
      (fun i deserData => some (storeWords deserData (i * object.polyWords) object.polyWords
        (object.fv.memoryWord
          (importSlots first_ fun k => deserData (i * object.polyWords + k))))) deserData

/-! ## Decryption of slots -/

section Decryption

variable {object} {keys : object.fv.Keys} {c : object.Cipher} {m e : ℕ → ℤ}

/-- The slots of a ciphertext are those of its message, as long as the noise is small. -/
theorem dec_eq
    (holds : FV.Holds keys (transformtoFV_cipher c)
      fun i => object.fv.q / object.fv.t * m i + e i)
    (noise_lt : ∀ i < object.fv.degree, |object.fv.noiseAt m e i| < (object.fv.q : ℤ) / 2)
    {slots : object.fv.polyP_p.poly} (transforms : object.fv.polyP_p.Transforms slots m) {i : ℕ}
    (i_lt : i < object.fv.degree) : dec keys c i = (slots object.fv.first i).val := by
  have positive : NeZero object.fv.t := FV.p_neZero
  have messages : ∀ i < object.fv.degree,
      FV.decrypt_poly keys (transformtoFV_cipher c) i = m i % object.fv.t :=
    fun i i_lt => holds.decrypt_poly_eq object.moduli_pos i_lt (noise_lt i i_lt)
  let p2 := object.fv.polyP_p.ntt_pow_phi
    (object.fv.polyP_p.mpz2poly (FV.decrypt_poly keys (transformtoFV_cipher c)))
  have residues : object.fv.polyP_p.Transforms p2 m := by
    apply PolyType.transforms_ntt
    intro cm i i_lt
    rw [PolyType.mpz2poly, messages i i_lt]
    exact ZMod.intCast_mod (m i) object.fv.t
  have slots_eq : ∀ i < object.fv.degree, p2 object.fv.first i = slots object.fv.first i := by
    intro i i_lt
    rw [residues _ i i_lt, transforms _ i i_lt]
  have product : object.fv.polyP_p.moduli_product = object.fv.t := Finset.prod_singleton _ _
  have word : ∀ i < object.fv.degree,
      object.fv.polyP_p.poly2mpz p2 i = (slots object.fv.first i).val := by
    intro i i_lt
    have integer : (object.fv.polyP_p.poly2mpz p2 i : ℤ) =
        ((slots object.fv.first i).val : ℤ) % object.fv.polyP_p.moduli_product := by
      apply PolyType.poly2mpz_eq
      intro cm
      rw [FV.eq_first cm, slots_eq i i_lt, Int.cast_natCast]
      exact (ZMod.natCast_zmod_val (n := object.fv.t) _).symm
    have slot_lt : (slots object.fv.first i).val < object.fv.t := ZMod.val_lt (n := object.fv.t) _
    rw [product, Int.emod_eq_of_lt (Int.natCast_nonneg _) (by exact_mod_cast slot_lt)] at integer
    exact_mod_cast integer
  have word_lt : ∀ i < object.fv.degree,
      object.fv.polyP_p.poly2mpz p2 i < 2 ^ (32 * combien) := by
    intro i i_lt
    have slot_lt : (slots object.fv.first i).val < object.fv.t := ZMod.val_lt (n := object.fv.t) _
    rw [word i i_lt]
    exact slot_lt.trans object.plain_lt
  have exported := forLoop_mpzExport32 word_lt i_lt (show 0 < combien from Nat.one_pos)
  have single : i * combien + 0 = i := Nat.mul_one i
  rw [single, Nat.mul_zero, pow_zero, Nat.div_one,
    Nat.mod_eq_of_lt (show _ < 2 ^ 32 from word_lt i i_lt), word i i_lt] at exported
  exact exported

end Decryption

/-! ## The parameters of the classes -/

section Parameters

theorem three_le_ten : 3 ≤ 10 := by decide

theorem three_le_eleven : 3 ≤ 11 := by decide

theorem ten_le_thirteen : 10 ≤ 13 := by decide

theorem eleven_le_thirteen : 11 ≤ 13 := by decide

theorem absorbed_le_p16 : 2 ^ NFLFV.absorptionBits ≤ p16 := by decide

theorem absorbed_le_p32 : 2 ^ NFLFV.absorptionBits ≤ p32 := by decide

theorem p16_lt : p16 < 2 ^ 32 := by decide

theorem p32_lt : p32 < 2 ^ 32 := by decide

theorem one_modulus_le : 1 ≤ 2 := one_le_two

theorem two_moduli_le : 2 ≤ 2 := le_rfl

theorem FV1024_62_words64 : FV.FV1024_62.poly_p.T = .uint64 := rfl

theorem FV2048_62_words64 : FV.FV2048_62.poly_p.T = .uint64 := rfl

theorem FV2048_124_words64 : FV.FV2048_124.poly_p.T = .uint64 := rfl

theorem FV1024_62_single (masks : Option Masks) :
    masks.isSome = true → FV.FV1024_62.poly_p.nmoduli = 1 :=
  fun _ => rfl

theorem FV2048_62_single (masks : Option Masks) :
    masks.isSome = true → FV.FV2048_62.poly_p.nmoduli = 1 :=
  fun _ => rfl

theorem FV2048_124_single :
    (none : Option Masks).isSome = true → FV.FV2048_124.poly_p.nmoduli = 1 := by
  intro impossible
  cases impossible

def FV1024_62c (masks : Masks) : FVobject where
  fv := FV.FV1024_62
  masks := some masks
  moduli_pos := Nat.one_pos
  moduli_le := one_modulus_le
  single := FV1024_62_single (some masks)
  words64 := FV1024_62_words64
  levels_ge := three_le_ten
  levels_le := ten_le_thirteen
  plain_ge := absorbed_le_p16
  plain_lt := p16_lt

def FV2048_62c (masks : Masks) : FVobject where
  fv := FV.FV2048_62
  masks := some masks
  moduli_pos := Nat.one_pos
  moduli_le := one_modulus_le
  single := FV2048_62_single (some masks)
  words64 := FV2048_62_words64
  levels_ge := three_le_eleven
  levels_le := eleven_le_thirteen
  plain_ge := absorbed_le_p16
  plain_lt := p16_lt

def FV2048_124c : FVobject where
  fv := FV.FV2048_124
  masks := none
  moduli_pos := Nat.two_pos
  moduli_le := two_moduli_le
  single := FV2048_124_single
  words64 := FV2048_124_words64
  levels_ge := three_le_eleven
  levels_le := eleven_le_thirteen
  plain_ge := absorbed_le_p32
  plain_lt := p32_lt

end Parameters

end FVobject

end Xpir.Nfl
