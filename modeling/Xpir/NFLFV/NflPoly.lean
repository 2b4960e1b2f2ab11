import Mathlib.Data.Fin.VecNotation
import Mathlib.Data.Nat.Log
import Mathlib.Data.Nat.Size
import Xpir.Foundations.Crt
import Xpir.Foundations.Loop
import Xpir.Foundations.Transform
import Xpir.NFLFV.NflOps

/-!
# Polynomials of `nfl`

A polynomial has coefficients modulo one modulus or several of them. Its transform evaluates
it at the roots of `X ^ degree + 1`, and polynomials are multiplied there. The transform is
the network of butterflies on residues, with the powers of the roots that `initialize`
computes from the constants of the library. The words of the library, which the butterflies
reduce only in the end, are these residues (`core.ntt_pow_phi_val`).

The integers that a polynomial stands for are found by a weighted sum of the residues, which
is then reduced modulo the product of the moduli without a division.
-/

namespace Xpir.Nfl

/-- The constants of `params<T>` for one modulus. -/
structure Params (T : WordType) where
  p : ℕ
  primitive_root : ℕ
  invkMaxPolyDegree : ℕ
  /-- The logarithm of `kMaxPolyDegree`. -/
  maxLevels : ℕ
  one_lt : 1 < p
  p_lt : 4 * p < 2 ^ T.bits
  root_pow : (primitive_root : ZMod p) ^ 2 ^ maxLevels = -1
  inv_mul : (invkMaxPolyDegree : ZMod p) * (2 ^ maxLevels : ℕ) = 1

/-- The type `poly<T, degree, nmoduli>`. -/
structure PolyType where
  T : WordType
  levels : ℕ
  nmoduli : ℕ
  params : Fin nmoduli → Params T
  levels_le : ∀ cm, levels ≤ (params cm).maxLevels
  coprime : ∀ left right, left ≠ right → (params left).p.Coprime (params right).p

namespace PolyType

variable (P : PolyType)

abbrev poly : Type := ∀ cm : Fin P.nmoduli, ℕ → ZMod (P.params cm).p

section Model

def degree : ℕ := 2 ^ P.levels

def get_modulus (cm : Fin P.nmoduli) : ℕ := (P.params cm).p

/-! ## Values -/

/-- The words from an iterator, which are reduced. -/
def set (values : ℕ → ℕ) : P.poly := fun _ i => values i

/-- The words of all moduli from an iterator. -/
def setAll (values : ℕ → ℕ) : P.poly := fun cm i => values (cm * P.degree + i)

/-- An integer, as a constant. -/
def set_mpz (v : ℤ) : P.poly := fun _ i => if i = 0 then v else 0

/-- The values of a `gaussian`, which are integers. -/
def setNoise (rnd : ℕ → ℤ) : P.poly := fun _ i => rnd i

def mpz2poly (poly_mpz : ℕ → ℤ) : P.poly := fun _ i => poly_mpz i

/-! ## Transforms -/

/-- The root of which the powers are multiplied to the coefficients. -/
def phi (cm : Fin P.nmoduli) : ZMod (P.params cm).p :=
  forLoop ((P.params cm).maxLevels - P.levels) (fun _ phi => phi * phi) (P.params cm).primitive_root

def invphi (cm : Fin P.nmoduli) : ZMod (P.params cm).p :=
  P.phi cm ^ P.degree * P.phi cm ^ (P.degree - 1)

def invpolyDegree (cm : Fin P.nmoduli) : ZMod (P.params cm).p :=
  (P.params cm).invkMaxPolyDegree * (2 ^ (P.params cm).maxLevels / P.degree : ℕ)

/-- The network with the powers of `w`. -/
def ntt {p : ℕ} (w : ZMod p) (x : ℕ → ZMod p) : ℕ → ZMod p :=
  decimationLayers w P.levels x P.levels

def permut {p : ℕ} (x : ℕ → ZMod p) : ℕ → ZMod p := fun i => x (bitReverse P.levels i)

def inv_ntt {p : ℕ} (invomega : ZMod p) (x : ℕ → ZMod p) : ℕ → ZMod p :=
  P.permut (P.ntt invomega (P.permut x))

def ntt_pow_phi (op : P.poly) : P.poly := fun cm =>
  P.ntt (P.phi cm * P.phi cm) fun i => op cm i * P.phi cm ^ i

def invntt_pow_invphi (op : P.poly) : P.poly := fun cm i =>
  P.inv_ntt (P.invphi cm * P.invphi cm) (op cm) i * (P.invpolyDegree cm * P.invphi cm ^ i)

/-! ## Integers -/

def moduli_product : ℕ := ∏ cm, P.get_modulus cm

/-- `mpz_sizeinbase(moduli_product, 2)`. -/
def bits_in_moduli_product : ℕ := Nat.size P.moduli_product

def shift_modulus_shoup : ℕ := P.bits_in_moduli_product + P.T.bits + Nat.log 2 P.nmoduli + 1

def modulus_shoup : ℕ := 2 ^ P.shift_modulus_shoup / P.moduli_product

def poly2mpz (op : P.poly) (i : ℕ) : ℕ :=
  let rop := ∑ cm, liftingInteger P.get_modulus cm * (op cm i).val
  let tmp := rop * P.modulus_shoup / 2 ^ P.shift_modulus_shoup
  let rop := rop - tmp * P.moduli_product
  if P.moduli_product ≤ rop then rop - P.moduli_product else rop

end Model

/-- The integer polynomial whose values at the roots are given. -/
def Transforms (op : P.poly) (v : ℕ → ℤ) : Prop :=
  ∀ cm, ∀ cell < P.degree,
    op cm cell = negacyclicTransform (P.phi cm) P.levels (fun i => (v i : ZMod (P.params cm).p)) cell

section Roots

variable {P} (cm : Fin P.nmoduli)

theorem degree_pos : 0 < P.degree := Nat.two_pow_pos _

theorem p_pos : 0 < (P.params cm).p := Nat.lt_of_succ_lt (P.params cm).one_lt

theorem phi_eq :
    P.phi cm = (P.params cm).primitive_root ^ 2 ^ ((P.params cm).maxLevels - P.levels) := by
  have squares : ∀ count, forLoop count (fun _ phi => phi * phi)
      ((P.params cm).primitive_root : ZMod (P.params cm).p) =
        (P.params cm).primitive_root ^ 2 ^ count := by
    intro count
    induction count with
    | zero => rw [forLoop_zero, pow_zero, pow_one]
    | succ count ih => rw [forLoop_succ, ih, pow_succ, pow_mul, sq]
  exact squares _

theorem phi_halfway : P.phi cm ^ 2 ^ P.levels = -1 := by
  rw [phi_eq, ← pow_mul, ← pow_add, Nat.sub_add_cancel (P.levels_le cm)]
  exact (P.params cm).root_pow

theorem phi_mul_invphi : P.phi cm * P.invphi cm = 1 := by
  have halfway := phi_halfway cm
  have whole : P.phi cm * P.phi cm ^ (P.degree - 1) = P.phi cm ^ P.degree := by
    rw [← pow_succ', Nat.sub_add_cancel degree_pos]
  rw [invphi, mul_left_comm, whole, degree, halfway, neg_mul_neg, one_mul]

theorem invphi_halfway : P.invphi cm ^ 2 ^ P.levels = -1 := by
  have cancel : P.phi cm ^ 2 ^ P.levels * P.invphi cm ^ 2 ^ P.levels = 1 := by
    rw [← mul_pow, phi_mul_invphi, one_pow]
  rw [phi_halfway cm] at cancel
  linear_combination -cancel

theorem degree_mul_invpolyDegree :
    ((2 ^ P.levels : ℕ) : ZMod (P.params cm).p) * P.invpolyDegree cm = 1 := by
  have split : 2 ^ P.levels * (2 ^ (P.params cm).maxLevels / P.degree) =
      2 ^ (P.params cm).maxLevels := Nat.mul_div_cancel' (pow_dvd_pow 2 (P.levels_le cm))
  rw [invpolyDegree, mul_left_comm, ← Nat.cast_mul, split, (P.params cm).inv_mul]

end Roots

section Transforms

variable {P} {op other : P.poly} {v w : ℕ → ℤ} {cm : Fin P.nmoduli}

theorem ntt_pow_phi_apply (op : P.poly) (cm : Fin P.nmoduli) {cell : ℕ}
    (cell_lt : cell < P.degree) :
    P.ntt_pow_phi op cm cell = negacyclicTransform (P.phi cm) P.levels (op cm) cell := by
  rw [ntt_pow_phi, ntt, ← sq]
  exact decimationLayers_apply _ (sq_pow_halfway (phi_halfway cm)) cell_lt

/-- The network of the inverse transform, with the permutations before and after it. -/
theorem invntt_pow_invphi_eq (op : P.poly) (cm : Fin P.nmoduli) {i : ℕ} (i_lt : i < P.degree) :
    P.invntt_pow_invphi op cm i = dft (P.invphi cm ^ 2) (2 ^ P.levels)
      (fun frequency => op cm (bitReverse P.levels frequency)) i *
        (P.invpolyDegree cm * P.invphi cm ^ i) := by
  rw [invntt_pow_invphi, inv_ntt, permut, ntt, ← sq,
    decimationLayers_apply _ (sq_pow_halfway (invphi_halfway cm)) (bitReverse_lt _ _),
    bitReverse_bitReverse i_lt]
  rfl

/-- The inverse transform gives the coefficients. -/
theorem invntt_pow_invphi_apply {values : ℕ → ZMod (P.params cm).p}
    (transforms : ∀ cell < P.degree,
      op cm cell = negacyclicTransform (P.phi cm) P.levels values cell) {i : ℕ}
    (i_lt : i < P.degree) : P.invntt_pow_invphi op cm i = values i := by
  rw [invntt_pow_invphi_eq op cm i_lt, ← inverse_negacyclicTransform (phi_halfway cm)
    (phi_mul_invphi cm) (degree_mul_invpolyDegree cm) values i_lt]
  congr 1
  apply dft_congr
  intro frequency _
  exact transforms _ (bitReverse_lt _ _)

/-- A polynomial is the transform of its inverse transform. -/
theorem negacyclicTransform_invntt_pow_invphi (op : P.poly) (cm : Fin P.nmoduli) {cell : ℕ}
    (cell_lt : cell < P.degree) :
    negacyclicTransform (P.phi cm) P.levels (P.invntt_pow_invphi op cm) cell = op cm cell := by
  rw [← negacyclicTransform_inverse (phi_halfway cm) (phi_mul_invphi cm)
    (degree_mul_invpolyDegree cm) (op cm) cell_lt]
  exact negacyclicTransform_congr (fun i i_lt => invntt_pow_invphi_eq op cm i_lt) cell

theorem Transforms.congr (transforms : P.Transforms op v) (same : ∀ i < P.degree, v i = w i) :
    P.Transforms op w := by
  intro cm cell cell_lt
  rw [transforms cm cell cell_lt]
  apply negacyclicTransform_congr
  intro i i_lt
  rw [same i i_lt]

theorem transforms_ntt (same : ∀ cm, ∀ i < P.degree, op cm i = v i) :
    P.Transforms (P.ntt_pow_phi op) v := by
  intro cm cell cell_lt
  rw [ntt_pow_phi_apply op cm cell_lt]
  exact negacyclicTransform_congr (fun i i_lt => same cm i i_lt) cell

theorem Transforms.add (first : P.Transforms op v) (second : P.Transforms other w) :
    P.Transforms (op + other) fun i => v i + w i := by
  intro cm cell cell_lt
  rw [Pi.add_apply, Pi.add_apply, first cm cell cell_lt, second cm cell cell_lt]
  simp only [negacyclicTransform_eq_evaluate, evaluate, Int.cast_add, add_mul,
    Finset.sum_add_distrib]

theorem Transforms.sub (first : P.Transforms op v) (second : P.Transforms other w) :
    P.Transforms (op - other) fun i => v i - w i := by
  intro cm cell cell_lt
  rw [Pi.sub_apply, Pi.sub_apply, first cm cell cell_lt, second cm cell cell_lt]
  simp only [negacyclicTransform_eq_evaluate, evaluate, Int.cast_sub, sub_mul,
    Finset.sum_sub_distrib]

theorem Transforms.mul (first : P.Transforms op v) (second : P.Transforms other w) :
    P.Transforms (op * other) (negacyclicMul P.degree v w) := by
  intro cm cell cell_lt
  have product : (fun i => ((negacyclicMul P.degree v w i : ℤ) : ZMod (P.params cm).p)) =
      negacyclicMul (2 ^ P.levels) (fun i => (v i : ZMod (P.params cm).p))
        fun i => (w i : ZMod (P.params cm).p) := by
    funext i
    exact map_negacyclicMul (Int.castRingHom (ZMod (P.params cm).p)) P.degree v w i
  rw [Pi.mul_apply, Pi.mul_apply, first cm cell cell_lt, second cm cell cell_lt, product,
    negacyclicTransform_negacyclicMul (phi_halfway cm)]

theorem transforms_zero : P.Transforms 0 fun _ => 0 := by
  intro cm cell _
  simp [negacyclicTransform_eq_evaluate, evaluate]

end Transforms

section Lifting

variable {P}

theorem moduli_product_pos (P : PolyType) : 0 < P.moduli_product :=
  Finset.prod_pos fun cm _ => p_pos cm

theorem liftingInteger_lt (cm : Fin P.nmoduli) :
    liftingInteger P.get_modulus cm < P.moduli_product := by
  have positive : NeZero (P.get_modulus cm) := ⟨(p_pos cm).ne'⟩
  have whole : cofactor P.get_modulus cm * P.get_modulus cm = P.moduli_product := by
    rw [cofactor, moduli_product,
      ← Finset.prod_erase_mul Finset.univ P.get_modulus (Finset.mem_univ cm)]
    congr 1
    rw [← Finset.prod_erase_mul Finset.univ (fun other => if other = cm then 1 else
      P.get_modulus other) (Finset.mem_univ cm), if_pos rfl, mul_one]
    apply Finset.prod_congr rfl
    intro other other_mem
    rw [if_neg (Finset.ne_of_mem_erase other_mem)]
  have cofactor_pos : 0 < cofactor P.get_modulus cm := by
    apply Nat.pos_of_mul_pos_right
    rw [whole]
    exact P.moduli_product_pos
  rw [← whole, liftingInteger]
  exact Nat.mul_lt_mul_of_pos_left (ZMod.val_lt _) cofactor_pos

/-- The weighted sum is short enough for the reduction with the quotient. -/
theorem sum_liftingInteger_lt (op : P.poly) (i : ℕ) :
    ∑ cm, liftingInteger P.get_modulus cm * (op cm i).val < 2 ^ P.shift_modulus_shoup := by
  have word_lt : ∀ cm, (op cm i).val < 2 ^ P.T.bits := by
    intro cm
    have positive : NeZero (P.params cm).p := ⟨(p_pos cm).ne'⟩
    have p_lt := (P.params cm).p_lt
    have val_lt := (op cm i).val_lt
    omega
  have product_lt : P.moduli_product < 2 ^ P.bits_in_moduli_product := Nat.lt_size_self _
  have few : P.nmoduli < 2 ^ (Nat.log 2 P.nmoduli + 1) := Nat.lt_pow_succ_log_self (by omega) _
  calc ∑ cm, liftingInteger P.get_modulus cm * (op cm i).val
      ≤ ∑ _cm : Fin P.nmoduli, 2 ^ P.bits_in_moduli_product * 2 ^ P.T.bits := by
        apply Finset.sum_le_sum
        intro cm _
        exact Nat.mul_le_mul ((liftingInteger_lt cm).trans product_lt).le (word_lt cm).le
    _ = P.nmoduli * (2 ^ P.bits_in_moduli_product * 2 ^ P.T.bits) := by
        rw [Finset.sum_const, Finset.card_univ, Fintype.card_fin, smul_eq_mul]
    _ < 2 ^ (Nat.log 2 P.nmoduli + 1) * (2 ^ P.bits_in_moduli_product * 2 ^ P.T.bits) :=
        Nat.mul_lt_mul_of_pos_right few (by positivity)
    _ = 2 ^ P.shift_modulus_shoup := by
        rw [shift_modulus_shoup]
        ring

/-- The reduction without a division is exact. -/
theorem poly2mpz_eq_liftResidues (op : P.poly) (i : ℕ) :
    P.poly2mpz op i = liftResidues P.get_modulus fun cm => (op cm i).val := by
  have sum_lt := sum_liftingInteger_lt op i
  have remainder_lt := shoupRemainder_lt P.moduli_product_pos sum_lt 1
  have residue := shoupRemainder_mod (2 ^ P.shift_modulus_shoup)
    (∑ cm, liftingInteger P.get_modulus cm * (op cm i).val) 1 P.moduli_product
  rw [shoupRemainder, mul_one, one_mul] at remainder_lt residue
  simp only [poly2mpz, liftResidues]
  change _ = (∑ cm, liftingInteger P.get_modulus cm * (op cm i).val) % P.moduli_product
  rw [← residue, modulus_shoup]
  split
  next reached => rw [Nat.mod_eq_sub_mod reached, Nat.mod_eq_of_lt (by omega)]
  next below => rw [Nat.mod_eq_of_lt (by omega)]

/-- The integers of a polynomial are those of which it has the residues. -/
theorem poly2mpz_eq {op : P.poly} {i : ℕ} {v : ℤ} (agree : ∀ cm, op cm i = v) :
    (P.poly2mpz op i : ℤ) = v % P.moduli_product := by
  rw [poly2mpz_eq_liftResidues]
  apply liftResidues_eq P.coprime
  intro cm
  have positive : NeZero (P.params cm).p := ⟨(p_pos cm).ne'⟩
  rw [ZMod.natCast_zmod_val]
  exact agree cm

end Lifting

end PolyType

/-! ## The constants of the library -/

section Constants

theorem pow_two_pow_eq_neg_one {p root levels : ℕ}
    (squares : forLoop levels (fun _ phi => phi ^ 2 % p) root + 1 = p) :
    (root : ZMod p) ^ 2 ^ levels = -1 := by
  have cast : ∀ count, ((forLoop count (fun _ phi => phi ^ 2 % p) root : ℕ) : ZMod p) =
      (root : ZMod p) ^ 2 ^ count := by
    intro count
    induction count with
    | zero => rw [forLoop_zero, pow_zero, pow_one]
    | succ count ih => rw [forLoop_succ, ZMod.natCast_mod, Nat.cast_pow, ih, pow_succ 2, pow_mul]
  have vanishes : ((forLoop levels (fun _ phi => phi ^ 2 % p) root + 1 : ℕ) : ZMod p) = 0 := by
    rw [squares, ZMod.natCast_self]
  rw [Nat.cast_add, cast, Nat.cast_one] at vanishes
  exact eq_neg_of_add_eq_zero_left vanishes

theorem natCast_mul_eq_one {p left right : ℕ} (product : left * right % p = 1 % p) :
    (left : ZMod p) * (right : ℕ) = 1 := by
  have congruent := (ZMod.natCast_eq_natCast_iff' _ _ p).mpr product
  rwa [Nat.cast_mul, Nat.cast_one] at congruent

/-- The modulus for words of 16 bits. -/
def p16 : ℕ := 12289

/-- The first modulus for words of 32 bits. -/
def p32 : ℕ := 1073479681

/-- The first moduli for words of 64 bits. -/
def p64 : Fin 2 → ℕ := ![4611686018326724609, 4611686018309947393]

def primitive_roots64 : Fin 2 → ℕ := ![2262382610096409597, 542331589372957056]

def invkMaxPolyDegree64 : Fin 2 → ℕ := ![4611681620280213601, 4611681620263436401]

/-- The lower words of the reciprocals. -/
def pn64 : Fin 2 → ℕ := ![1610612720, 1879048176]

theorem one_lt_p16 : 1 < p16 := by decide

theorem p16_lt : 4 * p16 < 2 ^ WordType.uint16.bits := by decide

theorem root_pow16 : ((1331 : ℕ) : ZMod p16) ^ 2 ^ 11 = -1 :=
  pow_two_pow_eq_neg_one (by decide +kernel)

theorem inv_mul16 : ((12283 : ℕ) : ZMod p16) * (2 ^ 11 : ℕ) = 1 :=
  natCast_mul_eq_one (by decide +kernel)

def params16 : Params .uint16 where
  p := p16
  primitive_root := 1331
  invkMaxPolyDegree := 12283
  maxLevels := 11
  one_lt := one_lt_p16
  p_lt := p16_lt
  root_pow := root_pow16
  inv_mul := inv_mul16

theorem one_lt_p32 : 1 < p32 := by decide

theorem p32_lt : 4 * p32 < 2 ^ WordType.uint32.bits := by decide

theorem root_pow32 : ((31849551 : ℕ) : ZMod p32) ^ 2 ^ 15 = -1 :=
  pow_two_pow_eq_neg_one (by decide +kernel)

theorem inv_mul32 : ((1073446921 : ℕ) : ZMod p32) * (2 ^ 15 : ℕ) = 1 :=
  natCast_mul_eq_one (by decide +kernel)

def params32 : Params .uint32 where
  p := p32
  primitive_root := 31849551
  invkMaxPolyDegree := 1073446921
  maxLevels := 15
  one_lt := one_lt_p32
  p_lt := p32_lt
  root_pow := root_pow32
  inv_mul := inv_mul32

theorem one_lt_p64 (cm : Fin 2) : 1 < p64 cm := by
  revert cm
  decide

theorem p64_lt (cm : Fin 2) : 4 * p64 cm < 2 ^ WordType.uint64.bits := by
  revert cm
  decide

theorem root_pow64 (cm : Fin 2) : (primitive_roots64 cm : ZMod (p64 cm)) ^ 2 ^ 20 = -1 := by
  apply pow_two_pow_eq_neg_one
  revert cm
  decide +kernel

theorem inv_mul64 (cm : Fin 2) :
    (invkMaxPolyDegree64 cm : ZMod (p64 cm)) * (2 ^ 20 : ℕ) = 1 := by
  apply natCast_mul_eq_one
  revert cm
  decide +kernel

theorem p64_coprime {left right : Fin 2} (distinct : left ≠ right) :
    (p64 left).Coprime (p64 right) := by
  revert left right
  decide +kernel

def params64 (cm : Fin 2) : Params .uint64 where
  p := p64 cm
  primitive_root := primitive_roots64 cm
  invkMaxPolyDegree := invkMaxPolyDegree64 cm
  maxLevels := 20
  one_lt := one_lt_p64 cm
  p_lt := p64_lt cm
  root_pow := root_pow64 cm
  inv_mul := inv_mul64 cm

theorem pn64_lt (cm : Fin 2) : pn64 cm < 2 ^ 63 := by
  revert cm
  decide

theorem pn64_eq (cm : Fin 2) : pn64 cm + 4 * 2 ^ 64 = 2 ^ 64 * 2 ^ 64 / p64 cm := by
  revert cm
  decide +kernel

/-- The type `poly_from_modulus<uint64_t, degree, bits>` for at most two moduli. -/
def poly_from_modulus (levels nmoduli : ℕ) (levels_le : levels ≤ 20) (nmoduli_le : nmoduli ≤ 2) :
    PolyType where
  T := .uint64
  levels := levels
  nmoduli := nmoduli
  params := fun cm => params64 (cm.castLE nmoduli_le)
  levels_le := fun _ => levels_le
  coprime := fun _ _ distinct =>
    p64_coprime fun same => distinct (Fin.castLE_injective nmoduli_le same)

/-- The multiplication without a division is the one of the residues. -/
theorem mulmod64_params64 (cm : Fin 2) [NeZero (p64 cm)] (x y : ZMod (p64 cm)) :
    ops.mulmod64 (pn64 cm) x.val y.val (p64 cm) = (x * y).val :=
  ops.mulmod64_val (p64_lt cm) (pn64_lt cm) (pn64_eq cm) x y

end Constants

end Xpir.Nfl
