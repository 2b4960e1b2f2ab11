import Xpir.NFLlib.NFLParams
import Xpir.NFLlib.NTT

/-!
# Configuration of the transforms

This file contains the computation of the constants of an instance of the
library, and the transforms of polynomials in residue number representation that
use them.

The results are stated for one modulus at a time. The forward transform
represents `negacyclicTransform`, the inverse transform recovers the coefficients
with complete reduction, and products of transforms correspond to products modulo
`X ^ polyDegree + 1`.
-/

namespace Xpir

/-- An instance of the library: a degree that is a power of two, and some moduli. -/
structure NFLlib where
  levels : ℕ
  nbModuli : ℕ
  moduli : Fin nbModuli → NFLlib.Modulus
  levels_le : levels ≤ 13

namespace NFLlib

/-- The instance using the first `nbModuli` moduli of the library. -/
def standard (levels nbModuli : ℕ) (levels_le : levels ≤ 13)
    (nbModuli_le : nbModuli ≤ kMaxNbModuli) : NFLlib where
  levels := levels
  nbModuli := nbModuli
  moduli cm := standardModulus (cm.castLE nbModuli_le)
  levels_le := levels_le

theorem two_le_thirteen : 2 ≤ 13 := by decide

theorem nine_le_thirteen : 9 ≤ 13 := by decide

/-- The moduli are the first ones of the library. -/
def Standard (nfl : NFLlib) : Prop :=
  ∃ inRange : nfl.nbModuli ≤ kMaxNbModuli, ∀ cm, nfl.moduli cm = standardModulus (cm.castLE inRange)

theorem standard_isStandard {levels nbModuli : ℕ} (levels_le : levels ≤ 13)
    (nbModuli_le : nbModuli ≤ kMaxNbModuli) :
    (standard levels nbModuli levels_le nbModuli_le).Standard :=
  ⟨nbModuli_le, fun _ => rfl⟩

/-- The words of a polynomial, one array for each modulus. -/
abbrev Poly (nbModuli : ℕ) := Fin nbModuli → ℕ → ℕ

variable (nfl : NFLlib)

/-- Number of coefficients of a polynomial. -/
def polyDegree : ℕ := 2 ^ nfl.levels

/-! ## The constants of one modulus -/

/-- The tables computed for one modulus. -/
structure NTTTables where
  phis : ShoupTable
  invpolyTimesInvphis : ShoupTable
  omegas : ShoupTable
  invomegas : ShoupTable

/-- Freshly allocated tables. -/
def ShoupTable.fresh : ShoupTable where
  entry _ := 0
  shoup _ := 0

section Words

variable (modulus : Modulus) (polyDegree : ℕ)

/-- The root of the modulus, squared until its order is twice the degree. -/
def phiWord : ℕ :=
  forLoop (13 - Nat.log2 polyDegree) (fun _ word => mulmod word word modulus.p)
    modulus.primitiveRoot

/-- The powers of `phi`, with the power that follows the last one. -/
def phisTable : ℕ × ShoupTable :=
  fillPowers 1 (phiWord modulus polyDegree) modulus.p 0 polyDegree ShoupTable.fresh

/-- The inverse of `phi`, as the product of its two largest powers computed. -/
def invphiWord : ℕ :=
  mulmod (phisTable modulus polyDegree).1
    ((phisTable modulus polyDegree).2.entry (polyDegree - 1)) modulus.p

/-- The inverse of the degree, derived from the inverse of the largest degree. -/
def invpolyDegreeWord : ℕ :=
  mulmod modulus.invMaxPolyDegree (kMaxPolyDegree / polyDegree) modulus.p

/-- The tables `configureNTT` computes for one modulus. -/
def configureNTT : NTTTables :=
  let omega := mulmod (phiWord modulus polyDegree) (phiWord modulus polyDegree) modulus.p
  let invomega := mulmod (invphiWord modulus polyDegree) (invphiWord modulus polyDegree) modulus.p
  { phis := (phisTable modulus polyDegree).2
    invpolyTimesInvphis :=
      (fillPowers (invpolyDegreeWord modulus polyDegree) (invphiWord modulus polyDegree)
        modulus.p 0 polyDegree ShoupTable.fresh).2
    omegas := prepWtab polyDegree omega modulus.p 0 ShoupTable.fresh
    invomegas := prepWtab polyDegree invomega modulus.p 0 ShoupTable.fresh }

end Words

section Constants

variable (modulus : Modulus) (levels : ℕ)

/-- The square root of the transform's root. -/
def phi : ZMod modulus.p :=
  (modulus.primitiveRoot : ZMod modulus.p) ^ 2 ^ (13 - levels)

/-- The inverse of `phi`. -/
def invphi : ZMod modulus.p :=
  phi modulus levels ^ (2 ^ levels + (2 ^ levels - 1))

/-- The inverse of the degree. -/
def invpolyDegree : ZMod modulus.p :=
  (modulus.invMaxPolyDegree : ZMod modulus.p) * (2 ^ (13 - levels) : ℕ)

variable {levels}

theorem phi_pow (levels_le : levels ≤ 13) : phi modulus levels ^ 2 ^ levels = -1 := by
  rw [phi, ← pow_mul, ← pow_add, Nat.sub_add_cancel levels_le]
  exact modulus.root_pow

theorem phi_mul_invphi (levels_le : levels ≤ 13) :
    phi modulus levels * invphi modulus levels = 1 := by
  have exponent : 1 + (2 ^ levels + (2 ^ levels - 1)) = 2 ^ levels + 2 ^ levels := by
    have := Nat.two_pow_pos levels
    omega
  rw [invphi, ← pow_succ', add_comm _ 1, exponent, pow_add, phi_pow modulus levels_le]
  ring

theorem polyDegree_mul_invpolyDegree (levels_le : levels ≤ 13) :
    ((2 ^ levels : ℕ) : ZMod modulus.p) * invpolyDegree modulus levels = 1 := by
  have largest : 2 ^ levels * 2 ^ (13 - levels) = kMaxPolyDegree := by
    rw [← pow_add, Nat.add_sub_cancel' levels_le]
    rfl
  rw [invpolyDegree, mul_left_comm, ← Nat.cast_mul, largest]
  exact modulus.inv_mul

theorem invphi_pow (levels_le : levels ≤ 13) :
    0 < levels → (invphi modulus levels ^ 2) ^ 2 ^ (levels - 1) = -1 := by
  apply sq_pow_halfway
  have product : phi modulus levels ^ 2 ^ levels * invphi modulus levels ^ 2 ^ levels = 1 := by
    rw [← mul_pow, phi_mul_invphi modulus levels_le, one_pow]
  rw [phi_pow modulus levels_le] at product
  linear_combination -product

end Constants

/-- What the tables of one modulus hold. -/
structure NTTTables.Holds (tables : NTTTables) (modulus : Modulus) (levels : ℕ) : Prop where
  phis : ∀ i < 2 ^ levels, tables.phis.Holds modulus.p i (phi modulus levels ^ i)
  invpolyTimesInvphis : ∀ i < 2 ^ levels, tables.invpolyTimesInvphis.Holds modulus.p i
    (invpolyDegree modulus levels * invphi modulus levels ^ i)
  omegas : HoldsTwiddles tables.omegas modulus.p (phi modulus levels ^ 2) levels
  invomegas : HoldsTwiddles tables.invomegas modulus.p (invphi modulus levels ^ 2) levels

section Configured

variable (modulus : Modulus) (levels : ℕ)

theorem cast_phiWord : (phiWord modulus (2 ^ levels) : ZMod modulus.p) = phi modulus levels := by
  rw [phiWord, Nat.log2_two_pow, phi]
  generalize 13 - levels = count
  induction count with
  | zero => simp
  | succ count ih => rw [forLoop_succ, cast_mulmod, ih, pow_succ, pow_mul, sq]

theorem phisTable_spec :
    ((phisTable modulus (2 ^ levels)).1 : ZMod modulus.p) = phi modulus levels ^ 2 ^ levels ∧
    ∀ i < 2 ^ levels, (phisTable modulus (2 ^ levels)).2.Holds modulus.p i
      (phi modulus levels ^ i) := by
  have powers := fillPowers_spec modulus.one_lt (phiWord modulus (2 ^ levels)) 0 (2 ^ levels)
    ShoupTable.fresh
  simp only [Nat.cast_one, one_mul, Nat.zero_add, cast_phiWord] at powers
  exact ⟨powers.1.2, powers.2.1⟩

theorem cast_invphiWord :
    (invphiWord modulus (2 ^ levels) : ZMod modulus.p) = invphi modulus levels := by
  rcases phisTable_spec modulus levels with ⟨last, entries⟩
  have size_pos := Nat.two_pow_pos levels
  rw [invphiWord, cast_mulmod, last, (entries (2 ^ levels - 1) (by omega)).cast_entry, ← pow_add,
    invphi]

theorem cast_invpolyDegreeWord (levels_le : levels ≤ 13) :
    (invpolyDegreeWord modulus (2 ^ levels) : ZMod modulus.p) = invpolyDegree modulus levels := by
  rw [invpolyDegreeWord, cast_mulmod, show kMaxPolyDegree = 2 ^ 13 by rfl,
    Nat.pow_div levels_le (by omega), invpolyDegree]

theorem configureNTT_holds (levels_le : levels ≤ 13) :
    (configureNTT modulus (2 ^ levels)).Holds modulus levels := by
  constructor
  · exact (phisTable_spec modulus levels).2
  · have reduced : invpolyDegreeWord modulus (2 ^ levels) < modulus.p :=
      mulmod_lt modulus.p_pos _ _
    have powers := fillPowers_spec reduced (invphiWord modulus (2 ^ levels)) 0 (2 ^ levels)
      ShoupTable.fresh
    simp only [Nat.zero_add, cast_invphiWord, cast_invpolyDegreeWord modulus levels levels_le]
      at powers
    exact powers.2.1
  · have twiddles := prepWtab_holdsTwiddles modulus.one_lt levels
      (mulmod (phiWord modulus (2 ^ levels)) (phiWord modulus (2 ^ levels)) modulus.p)
      ShoupTable.fresh
    rwa [cast_mulmod, cast_phiWord, ← sq] at twiddles
  · have twiddles := prepWtab_holdsTwiddles modulus.one_lt levels
      (mulmod (invphiWord modulus (2 ^ levels)) (invphiWord modulus (2 ^ levels)) modulus.p)
      ShoupTable.fresh
    rwa [cast_mulmod, cast_invphiWord, ← sq] at twiddles

end Configured

/-! ## The bit reversal permutation -/

/-- The loop on `h` that reverses the bits of an index. -/
def reverseLoop (polyDegree h ii r : ℕ) : ℕ :=
  if 0 < h ∧ h < polyDegree then reverseLoop polyDegree (h * 2) (ii / 2) (r * 2 + ii % 2) else r
termination_by polyDegree - h

/-- The first permutation computed. -/
def invIndexesTmp (polyDegree i : ℕ) : ℕ :=
  reverseLoop polyDegree 1 i 0

/-- Its inverse, obtained by searching each index among the images. -/
def invIndexes (polyDegree i : ℕ) : ℕ :=
  ((List.range polyDegree).find? (fun j => invIndexesTmp polyDegree j == i)).getD 0

theorem reverseLoop_eq (rest done ii r : ℕ) :
    reverseLoop (2 ^ (done + rest)) (2 ^ done) ii r = r * 2 ^ rest + bitReverse rest ii := by
  induction rest generalizing done ii r with
  | zero =>
      rw [reverseLoop, if_neg (by simp)]
      simp [bitReverse]
  | succ rest ih =>
      have done_lt : 2 ^ done < 2 ^ (done + (rest + 1)) :=
        Nat.pow_lt_pow_right (by omega) (by omega)
      rw [reverseLoop, if_pos ⟨Nat.two_pow_pos done, done_lt⟩, ← pow_succ,
        show done + (rest + 1) = done + 1 + rest by omega, ih, bitReverse]
      ring

theorem invIndexesTmp_eq (levels i : ℕ) : invIndexesTmp (2 ^ levels) i = bitReverse levels i := by
  have loop := reverseLoop_eq levels 0 i 0
  simpa [invIndexesTmp] using loop

theorem invIndexes_eq {levels i : ℕ} (i_lt : i < 2 ^ levels) :
    invIndexes (2 ^ levels) i = bitReverse levels i := by
  simp only [invIndexes, invIndexesTmp_eq]
  cases search : (List.range (2 ^ levels)).find? (fun j => bitReverse levels j == i) with
  | none =>
      have absent := List.find?_eq_none.mp search (bitReverse levels i)
        (List.mem_range.mpr (bitReverse_lt levels i))
      simp [bitReverse_bitReverse i_lt] at absent
  | some j =>
      have found : bitReverse levels j = i := by simpa using List.find?_some search
      have j_lt := List.mem_range.mp (List.mem_of_find?_eq_some search)
      rw [Option.getD_some, ← found, bitReverse_bitReverse j_lt]

/-! ## Transforms of polynomials -/

/-- Multiply the words of a polynomial by the entries of a table. -/
def scaleByTable (table : ShoupTable) (p polyDegree : ℕ) (op : ℕ → ℕ) : ℕ → ℕ :=
  forLoop polyDegree (fun i op =>
    Function.update op i (mulmodShoup (op i) (table.entry i) (table.shoup i) p)) op

/-- Multiplication by the powers of `phi`, then transform. -/
def nttAndPowPhi (op : Poly nfl.nbModuli) : Poly nfl.nbModuli := fun cm =>
  let p := (nfl.moduli cm).p
  let tables := configureNTT (nfl.moduli cm) nfl.polyDegree
  ntt (scaleByTable tables.phis p nfl.polyDegree (op cm)) tables.omegas nfl.polyDegree p

/-- Inverse transform, then multiplication by the powers of the inverse of `phi`. -/
def invnttAndPowInvPhi (op : Poly nfl.nbModuli) : Poly nfl.nbModuli := fun cm =>
  let p := (nfl.moduli cm).p
  let tables := configureNTT (nfl.moduli cm) nfl.polyDegree
  scaleByTable tables.invpolyTimesInvphis p nfl.polyDegree
    (invNtt (op cm) tables.invomegas nfl.polyDegree p (invIndexes nfl.polyDegree))

/-- Products of coefficients. -/
def mulmodPolyNTT (rop op1 op2 : Poly nfl.nbModuli) : Poly nfl.nbModuli := fun cm =>
  forLoop nfl.polyDegree (fun i rop =>
    Function.update rop i (mulmod (op1 cm i) (op2 cm i) (nfl.moduli cm).p)) (rop cm)

/-- Closed form of a loop that rewrites each cell from its own content. -/
theorem forLoop_update_apply (count : ℕ) (update : ℕ → ℕ → ℕ) (array : ℕ → ℕ) (cell : ℕ) :
    forLoop count (fun i array => Function.update array i (update i (array i))) array cell =
      if cell < count then update cell (array cell) else array cell := by
  apply forLoop_apply_of_owner id (fun array cell => update cell (array cell))
  · intro i array cell _
    rw [Function.update_apply]
    by_cases owned : cell = i
    · rw [if_pos owned, id, if_pos owned, owned]
    · rw [if_neg owned, id, if_neg owned]
  · intro left right cell agree
    rw [agree cell rfl]

theorem scaleByTable_apply (table : ShoupTable) (p polyDegree : ℕ) (op : ℕ → ℕ) {cell : ℕ}
    (cell_lt : cell < polyDegree) :
    scaleByTable table p polyDegree op cell =
      mulmodShoup (op cell) (table.entry cell) (table.shoup cell) p := by
  rw [scaleByTable, forLoop_update_apply polyDegree
    (fun i word => mulmodShoup word (table.entry i) (table.shoup i) p), if_pos cell_lt]

theorem mulmodPolyNTT_apply (rop op1 op2 : Poly nfl.nbModuli) (cm : Fin nfl.nbModuli) {cell : ℕ}
    (cell_lt : cell < nfl.polyDegree) :
    nfl.mulmodPolyNTT rop op1 op2 cm cell =
      mulmod (op1 cm cell) (op2 cm cell) (nfl.moduli cm).p := by
  rw [mulmodPolyNTT, forLoop_update_apply nfl.polyDegree
    (fun i _ => mulmod (op1 cm i) (op2 cm i) (nfl.moduli cm).p), if_pos cell_lt]

section Transforms

variable {nfl} {cm : Fin nfl.nbModuli}

/-- The transform represents the values at the roots of `X ^ polyDegree + 1`. -/
theorem nttAndPowPhi_represents {op : Poly nfl.nbModuli}
    (op_lt : ∀ i < nfl.polyDegree, op cm i < 2 ^ 64) :
    Represents (nfl.moduli cm).p nfl.polyDegree (nfl.nttAndPowPhi op cm)
      (negacyclicTransform (phi (nfl.moduli cm) nfl.levels) nfl.levels
        (fun i => (op cm i : ZMod (nfl.moduli cm).p))) := by
  have tables := configureNTT_holds (nfl.moduli cm) nfl.levels nfl.levels_le
  have p_lt := (nfl.moduli cm).p_lt
  have scaled : Represents (nfl.moduli cm).p nfl.polyDegree
      (scaleByTable (configureNTT (nfl.moduli cm) nfl.polyDegree).phis (nfl.moduli cm).p
        nfl.polyDegree (op cm))
      (fun i => (op cm i : ZMod (nfl.moduli cm).p) * phi (nfl.moduli cm) nfl.levels ^ i) := by
    intro i i_lt
    have entry := tables.phis i i_lt
    have word_lt := op_lt i i_lt
    rw [scaleByTable_apply _ _ _ _ i_lt, polyDegree, entry.shoup_eq,
      cast_mulmodShoup p_lt word_lt entry.entry_lt, entry.cast_entry]
    have := mulmodShoup_lt p_lt word_lt entry.entry_lt
    exact ⟨by omega, rfl⟩
  intro cell cell_lt
  have transformed := ntt_represents p_lt tables.omegas scaled cell cell_lt
  rwa [decimationLayers_apply _ (sq_pow_halfway (phi_pow (nfl.moduli cm) nfl.levels_le)) cell_lt]
    at transformed

/-- The inverse transform recovers the coefficients, completely reduced. -/
theorem invnttAndPowInvPhi_spec {op : Poly nfl.nbModuli} {values : ℕ → ZMod (nfl.moduli cm).p}
    (represents : Represents (nfl.moduli cm).p nfl.polyDegree (op cm)
      (negacyclicTransform (phi (nfl.moduli cm) nfl.levels) nfl.levels values))
    {i : ℕ} (i_lt : i < nfl.polyDegree) :
    nfl.invnttAndPowInvPhi op cm i < (nfl.moduli cm).p ∧
      (nfl.invnttAndPowInvPhi op cm i : ZMod (nfl.moduli cm).p) = values i := by
  have tables := configureNTT_holds (nfl.moduli cm) nfl.levels nfl.levels_le
  have p_lt := (nfl.moduli cm).p_lt
  have entry := tables.invpolyTimesInvphis i i_lt
  have reversal : ∀ i < 2 ^ nfl.levels, invIndexes (2 ^ nfl.levels) i = bitReverse nfl.levels i :=
    fun i i_lt => invIndexes_eq i_lt
  have transformed := invNtt_represents reversal p_lt
    (invphi_pow (nfl.moduli cm) nfl.levels_le) tables.invomegas represents i i_lt
  have inverse := inverse_negacyclicTransform (phi_pow (nfl.moduli cm) nfl.levels_le)
    (phi_mul_invphi (nfl.moduli cm) nfl.levels_le)
    (polyDegree_mul_invpolyDegree (nfl.moduli cm) nfl.levels_le) values i_lt
  simp only [invnttAndPowInvPhi, polyDegree] at *
  rw [scaleByTable_apply _ _ _ _ i_lt, entry.shoup_eq]
  have word_lt := transformed.1
  refine ⟨mulmodShoup_lt p_lt (by omega) entry.entry_lt, ?_⟩
  rw [cast_mulmodShoup p_lt (by omega) entry.entry_lt, transformed.2, entry.cast_entry, inverse]

end Transforms

/-! ## The ring of polynomials modulo `X ^ polyDegree + 1` -/

/-- The polynomial over the residues that an array of words stands for. -/
noncomputable def residuePolynomial (p size : ℕ) (op : ℕ → ℕ) : Polynomial (ZMod p) :=
  polynomialOf size (fun i => (op i : ZMod p))

theorem represents_mulmodPolyNTT {cm : Fin nfl.nbModuli} (rop : Poly nfl.nbModuli)
    {op1 op2 : Poly nfl.nbModuli} {left right : ℕ → ZMod (nfl.moduli cm).p}
    (leftRepresents : Represents (nfl.moduli cm).p nfl.polyDegree (op1 cm) left)
    (rightRepresents : Represents (nfl.moduli cm).p nfl.polyDegree (op2 cm) right) :
    Represents (nfl.moduli cm).p nfl.polyDegree (nfl.mulmodPolyNTT rop op1 op2 cm)
      (fun cell => left cell * right cell) := by
  intro cell cell_lt
  have reduced := mulmod_lt (nfl.moduli cm).p_pos (op1 cm cell) (op2 cm cell)
  rw [mulmodPolyNTT_apply nfl rop op1 op2 cm cell_lt, cast_mulmod,
    (leftRepresents cell cell_lt).2, (rightRepresents cell cell_lt).2]
  exact ⟨by omega, rfl⟩

/--
The transforms are inverse to each other on polynomials with arbitrary words as
coefficients, and turn coefficientwise products into products modulo
`X ^ polyDegree + 1`. The results are completely reduced.
-/
theorem ntt_negacyclic_ring (cm : Fin nfl.nbModuli) (f g rop : Poly nfl.nbModuli)
    (f_lt : ∀ i < nfl.polyDegree, f cm i < 2 ^ 64) (g_lt : ∀ i < nfl.polyDegree, g cm i < 2 ^ 64) :
    let p := (nfl.moduli cm).p
    let n := nfl.polyDegree
    let product := nfl.invnttAndPowInvPhi
      (nfl.mulmodPolyNTT rop (nfl.nttAndPowPhi f) (nfl.nttAndPowPhi g)) cm
    (∀ i < n, nfl.invnttAndPowInvPhi (nfl.nttAndPowPhi f) cm i = f cm i % p) ∧
      (∀ i < n, product i < p) ∧
      (Polynomial.X ^ n + 1 ∣ residuePolynomial p n (f cm) * residuePolynomial p n (g cm) -
        residuePolynomial p n product) := by
  intro p n product
  have halfway := phi_pow (nfl.moduli cm) nfl.levels_le
  have products : Represents p n
      (nfl.mulmodPolyNTT rop (nfl.nttAndPowPhi f) (nfl.nttAndPowPhi g) cm)
      (negacyclicTransform (phi (nfl.moduli cm) nfl.levels) nfl.levels
        (negacyclicMul n (fun i => (f cm i : ZMod p)) (fun i => (g cm i : ZMod p)))) := by
    have pointwise := represents_mulmodPolyNTT nfl rop (nttAndPowPhi_represents f_lt)
      (nttAndPowPhi_represents g_lt)
    simp only [← negacyclicTransform_negacyclicMul halfway] at pointwise
    exact pointwise
  refine ⟨?_, ?_, ?_⟩
  · intro i i_lt
    rcases invnttAndPowInvPhi_spec (nttAndPowPhi_represents f_lt) i_lt with ⟨reduced, residue⟩
    rw [← Nat.mod_eq_of_lt reduced]
    exact (ZMod.natCast_eq_natCast_iff' _ _ _).mp residue
  · intro i i_lt
    exact (invnttAndPowInvPhi_spec products i_lt).1
  · have coefficients : residuePolynomial p n product = polynomialOf n
        (negacyclicMul n (fun i => (f cm i : ZMod p)) (fun i => (g cm i : ZMod p))) := by
      apply polynomialOf_congr
      intro i i_lt
      exact (invnttAndPowInvPhi_spec products i_lt).2
    rw [coefficients]
    exact dvd_sub_negacyclicMul n _ _

theorem ntt_negacyclic_ring_four :
    (standard 2 1 (by decide) (by decide)).invnttAndPowInvPhi
      ((standard 2 1 (by decide) (by decide)).nttAndPowPhi (fun _ i => i + 1))
        ⟨0, by decide⟩ 3 = 4 := by
  have words : ∀ i < (standard 2 1 (by decide) (by decide)).polyDegree, i + 1 < 2 ^ 64 := by
    intro i i_lt
    change i < 4 at i_lt
    omega
  have roundTrip := (ntt_negacyclic_ring (standard 2 1 (by decide) (by decide)) ⟨0, by decide⟩
    (fun _ i => i + 1) (fun _ i => i + 1) (fun _ _ => 0) words words).1 3 (by decide)
  rw [roundTrip]
  decide

end NFLlib

end Xpir
