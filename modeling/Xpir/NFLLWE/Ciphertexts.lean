import Xpir.NFLLWE.Noise

/-!
# Operations on ciphertexts

This file contains the operations that the server and the client apply to whole
ciphertexts: the encryption of a number, the sum, the difference, and the product with a
data polynomial that is added to a result.

None of the operations of the server reduces its result completely. What they keep is that
the words are below twice the modulus and that the phase stands for an integer polynomial
(`LazilyEncrypts`). Decryption reads nothing else: it gives what it gives for the reduced
ciphertext (`invntt_decPhase_reduced`).
-/

namespace Xpir

open NFLlib

namespace NFLlib

variable (nfl : NFLlib)

/-- Addition of the coefficients of polynomials. -/
def addmodPoly (op1 op2 : Poly nfl.nbModuli) : Poly nfl.nbModuli := fun cm =>
  forLoop nfl.polyDegree (fun i rop =>
    Function.update rop i (addmod (op1 cm i) (op2 cm i) (nfl.moduli cm).p)) (op1 cm)

/-- Subtraction of the coefficients of polynomials. -/
def submodPoly (op1 op2 : Poly nfl.nbModuli) : Poly nfl.nbModuli := fun cm =>
  forLoop nfl.polyDegree (fun i rop =>
    Function.update rop i (submod (op1 cm i) (op2 cm i) (nfl.moduli cm).p)) (op1 cm)

/-- The quotients that the multiplications by a polynomial use. -/
def shouppoly (x : Poly nfl.nbModuli) : Poly nfl.nbModuli := fun cm i =>
  shoupQuotient (x cm i) (nfl.moduli cm).p

variable {nfl} {cm : Fin nfl.nbModuli} {cell : ℕ}

theorem addmodPoly_apply (op1 op2 : Poly nfl.nbModuli) (cell_lt : cell < nfl.polyDegree) :
    nfl.addmodPoly op1 op2 cm cell = addmod (op1 cm cell) (op2 cm cell) (nfl.moduli cm).p := by
  rw [addmodPoly, forLoop_update_apply nfl.polyDegree
    (fun i _ => addmod (op1 cm i) (op2 cm i) (nfl.moduli cm).p), if_pos cell_lt]

theorem submodPoly_apply (op1 op2 : Poly nfl.nbModuli) (cell_lt : cell < nfl.polyDegree) :
    nfl.submodPoly op1 op2 cm cell = submod (op1 cm cell) (op2 cm cell) (nfl.moduli cm).p := by
  rw [submodPoly, forLoop_update_apply nfl.polyDegree
    (fun i _ => submod (op1 cm i) (op2 cm i) (nfl.moduli cm).p), if_pos cell_lt]

/-- A sum of which one operand is reduced. -/
theorem addmod_lazy {x y p : ℕ} (p_lt : p < 2 ^ 62) (x_lt : x < 2 * p) (y_lt : y < p) :
    addmod x y p < 2 * p ∧ (addmod x y p : ZMod p) = x + y := by
  refine ⟨?_, cast_addmod (by omega)⟩
  rw [addmod_of_lt (by omega)]
  split <;> omega

/-- A difference of operands that are not reduced. -/
theorem submod_lazy {x p : ℕ} (p_lt : p < 2 ^ 62) (x_lt : x < 2 * p) (y : ℕ) :
    submod x y p < 2 * p ∧ (submod x y p : ZMod p) = x - y := by
  have reduced : y % p < p := Nat.mod_lt y (by omega)
  rw [submod]
  split
  next y_lt =>
    refine ⟨?_, ?_⟩
    · rw [addmod_of_lt (by omega)]
      split <;> omega
    · rw [cast_addmod (by omega), Nat.cast_sub y_lt.le, ZMod.natCast_self]
      ring
  next =>
    refine ⟨?_, ?_⟩
    · rw [addmod_of_lt (by omega)]
      split <;> omega
    · rw [cast_addmod (by omega), Nat.cast_sub reduced.le, ZMod.natCast_self, ZMod.natCast_mod]
      ring

end NFLlib

namespace NFLLWE

variable (lwe : NFLLWE)

/-- The random words of an encryption. -/
structure Coins (nbModuli : ℕ) where
  noise : ℕ → ℕ
  uniform : Poly nbModuli

section Model

/-- The message of `encrypt(unsigned int ui, unsigned int d)`. -/
def constantPoly (ui : ℕ) : Poly lwe.nfl.nbModuli := fun _ i => if i = 0 then ui else 0

/-- A number that does not fit in the bits absorbed by a ciphertext is cut. -/
def encryptUint (coins : Coins lwe.nfl.nbModuli) (ui : ℕ) :
    Poly lwe.nfl.nbModuli × Poly lwe.nfl.nbModuli :=
  let ui :=
    if lwe.getAbsorptionBitsize ≤ Nat.clog 2 ui then ui % 2 ^ lwe.getAbsorptionBitsize else ui
  lwe.enc (lwe.constantPoly ui) coins.noise coins.uniform

def add (op1 op2 : Poly lwe.nfl.nbModuli × Poly lwe.nfl.nbModuli) :
    Poly lwe.nfl.nbModuli × Poly lwe.nfl.nbModuli :=
  (lwe.nfl.addmodPoly op1.1 op2.1, lwe.nfl.addmodPoly op1.2 op2.2)

def sub (op1 op2 : Poly lwe.nfl.nbModuli × Poly lwe.nfl.nbModuli) :
    Poly lwe.nfl.nbModuli × Poly lwe.nfl.nbModuli :=
  (lwe.nfl.submodPoly op1.1 op2.1, lwe.nfl.submodPoly op1.2 op2.2)

/-- The version of `mulandadd` with the quotients of the query. -/
def mulandadd (rop : Poly lwe.nfl.nbModuli × Poly lwe.nfl.nbModuli) (op1 : Poly lwe.nfl.nbModuli)
    (op2 op2prime : Poly lwe.nfl.nbModuli × Poly lwe.nfl.nbModuli) :
    Poly lwe.nfl.nbModuli × Poly lwe.nfl.nbModuli :=
  (lwe.nfl.mulandaddPolyNTTShoup rop.1 op1 op2.1 op2prime.1,
    lwe.nfl.mulandaddPolyNTTShoup rop.2 op1 op2.2 op2prime.2)

end Model

/-- A ciphertext with words below twice the moduli whose phase stands for an integer polynomial. -/
structure LazilyEncrypts (lwe : NFLLWE)
    (cipher : Poly lwe.nfl.nbModuli × Poly lwe.nfl.nbModuli) (v : ℕ → ℤ) : Prop where
  lazy_a : ∀ cm, ∀ cell < lwe.nfl.polyDegree, cipher.1 cm cell < 2 * (lwe.nfl.moduli cm).p
  lazy_b : ∀ cm, ∀ cell < lwe.nfl.polyDegree, cipher.2 cm cell < 2 * (lwe.nfl.moduli cm).p
  phase_eq : ∀ cm, ∀ cell < lwe.nfl.polyDegree, lwe.phase cipher cm cell =
    lwe.transformOf cm (fun i => (v i : ZMod (lwe.nfl.moduli cm).p)) cell

section Linearity

variable {lwe} {left right cipher : Poly lwe.nfl.nbModuli × Poly lwe.nfl.nbModuli} {v w : ℕ → ℤ}

theorem Encrypts.lazily (encrypts : lwe.Encrypts cipher v) : lwe.LazilyEncrypts cipher v where
  lazy_a := by
    intro cm cell cell_lt
    have reduced := encrypts.reduced_a cm cell cell_lt
    omega
  lazy_b := by
    intro cm cell cell_lt
    have reduced := encrypts.reduced_b cm cell cell_lt
    omega
  phase_eq := encrypts.phase_eq

theorem LazilyEncrypts.congr (encrypts : lwe.LazilyEncrypts cipher v)
    (same : ∀ i < lwe.nfl.polyDegree, v i = w i) : lwe.LazilyEncrypts cipher w where
  lazy_a := encrypts.lazy_a
  lazy_b := encrypts.lazy_b
  phase_eq := by
    intro cm cell cell_lt
    rw [encrypts.phase_eq cm cell cell_lt]
    apply negacyclicTransform_congr
    intro i i_lt
    rw [same i i_lt]

theorem transformOf_add (cm : Fin lwe.nfl.nbModuli)
    (values others : ℕ → ZMod (lwe.nfl.moduli cm).p) (cell : ℕ) :
    lwe.transformOf cm (fun i => values i + others i) cell =
      lwe.transformOf cm values cell + lwe.transformOf cm others cell := by
  simp only [transformOf, negacyclicTransform_eq_evaluate, evaluate, add_mul,
    Finset.sum_add_distrib]

theorem transformOf_sub (cm : Fin lwe.nfl.nbModuli)
    (values others : ℕ → ZMod (lwe.nfl.moduli cm).p) (cell : ℕ) :
    lwe.transformOf cm (fun i => values i - others i) cell =
      lwe.transformOf cm values cell - lwe.transformOf cm others cell := by
  simp only [transformOf, negacyclicTransform_eq_evaluate, evaluate, sub_mul,
    Finset.sum_sub_distrib]

theorem add_apply (cm : Fin lwe.nfl.nbModuli) {cell : ℕ} (cell_lt : cell < lwe.nfl.polyDegree) :
    (lwe.add left right).1 cm cell =
        addmod (left.1 cm cell) (right.1 cm cell) (lwe.nfl.moduli cm).p ∧
      (lwe.add left right).2 cm cell =
        addmod (left.2 cm cell) (right.2 cm cell) (lwe.nfl.moduli cm).p :=
  ⟨addmodPoly_apply _ _ cell_lt, addmodPoly_apply _ _ cell_lt⟩

theorem sub_apply (cm : Fin lwe.nfl.nbModuli) {cell : ℕ} (cell_lt : cell < lwe.nfl.polyDegree) :
    (lwe.sub left right).1 cm cell =
        submod (left.1 cm cell) (right.1 cm cell) (lwe.nfl.moduli cm).p ∧
      (lwe.sub left right).2 cm cell =
        submod (left.2 cm cell) (right.2 cm cell) (lwe.nfl.moduli cm).p :=
  ⟨submodPoly_apply _ _ cell_lt, submodPoly_apply _ _ cell_lt⟩

/-- A ciphertext that is added is reduced, as those of a client are. -/
theorem LazilyEncrypts.add (first : lwe.LazilyEncrypts left v) (second : lwe.Encrypts right w) :
    lwe.LazilyEncrypts (lwe.add left right) (fun i => v i + w i) where
  lazy_a := by
    intro cm cell cell_lt
    rw [(add_apply cm cell_lt).1]
    exact (addmod_lazy (lwe.nfl.moduli cm).p_lt (first.lazy_a cm cell cell_lt)
      (second.reduced_a cm cell cell_lt)).1
  lazy_b := by
    intro cm cell cell_lt
    rw [(add_apply cm cell_lt).2]
    exact (addmod_lazy (lwe.nfl.moduli cm).p_lt (first.lazy_b cm cell cell_lt)
      (second.reduced_b cm cell cell_lt)).1
  phase_eq := by
    intro cm cell cell_lt
    have phases := first.phase_eq cm cell cell_lt
    have others := second.phase_eq cm cell cell_lt
    rw [phase] at phases others
    simp only [Int.cast_add, transformOf_add, ← phases, ← others]
    rw [phase, (add_apply cm cell_lt).1, (add_apply cm cell_lt).2,
      (addmod_lazy (lwe.nfl.moduli cm).p_lt (first.lazy_a cm cell cell_lt)
        (second.reduced_a cm cell cell_lt)).2,
      (addmod_lazy (lwe.nfl.moduli cm).p_lt (first.lazy_b cm cell cell_lt)
        (second.reduced_b cm cell cell_lt)).2]
    ring

theorem LazilyEncrypts.sub (first : lwe.LazilyEncrypts left v)
    (second : lwe.LazilyEncrypts right w) :
    lwe.LazilyEncrypts (lwe.sub left right) (fun i => v i - w i) where
  lazy_a := by
    intro cm cell cell_lt
    rw [(sub_apply cm cell_lt).1]
    exact (submod_lazy (lwe.nfl.moduli cm).p_lt (first.lazy_a cm cell cell_lt) _).1
  lazy_b := by
    intro cm cell cell_lt
    rw [(sub_apply cm cell_lt).2]
    exact (submod_lazy (lwe.nfl.moduli cm).p_lt (first.lazy_b cm cell cell_lt) _).1
  phase_eq := by
    intro cm cell cell_lt
    have phases := first.phase_eq cm cell cell_lt
    have others := second.phase_eq cm cell cell_lt
    rw [phase] at phases others
    simp only [Int.cast_sub, transformOf_sub, ← phases, ← others]
    rw [phase, (sub_apply cm cell_lt).1, (sub_apply cm cell_lt).2,
      (submod_lazy (lwe.nfl.moduli cm).p_lt (first.lazy_a cm cell cell_lt) _).2,
      (submod_lazy (lwe.nfl.moduli cm).p_lt (first.lazy_b cm cell cell_lt) _).2]
    ring

end Linearity

section Products

variable {lwe} {eltNbr : ℕ} {data : ℕ → Poly lwe.nfl.nbModuli} {coefficient : ℕ → ℕ → ℕ}
  {query : ℕ → Poly lwe.nfl.nbModuli × Poly lwe.nfl.nbModuli} {v : ℕ → ℕ → ℤ}

/-- A polynomial as the server stores it: its values at the roots, lazily reduced. -/
def Stored (lwe : NFLLWE) (poly : Poly lwe.nfl.nbModuli) (coefficient : ℕ → ℕ) : Prop :=
  ∀ cm, Represents (lwe.nfl.moduli cm).p lwe.nfl.polyDegree (poly cm)
    (lwe.transformOf cm fun i => (coefficient i : ZMod (lwe.nfl.moduli cm).p))

/-- The quotients that are stored with a query. -/
def shoup (lwe : NFLLWE) (cipher : Poly lwe.nfl.nbModuli × Poly lwe.nfl.nbModuli) :
    Poly lwe.nfl.nbModuli × Poly lwe.nfl.nbModuli :=
  (lwe.nfl.shouppoly cipher.1, lwe.nfl.shouppoly cipher.2)

/-- The sum of the products of data polynomials and query elements, with lazy reductions. -/
def lazyReply (lwe : NFLLWE) (eltNbr : ℕ) (data : ℕ → Poly lwe.nfl.nbModuli)
    (query : ℕ → Poly lwe.nfl.nbModuli × Poly lwe.nfl.nbModuli) :
    Poly lwe.nfl.nbModuli × Poly lwe.nfl.nbModuli :=
  forLoop eltNbr (fun j rop => lwe.mulandadd rop (data j) (query j) (lwe.shoup (query j)))
    (fun _ _ => 0, fun _ _ => 0)

/-- No accumulation of a word of the sum leaves the bounds of lazy reduction. -/
def SoundReply (lwe : NFLLWE) (eltNbr : ℕ) (data : ℕ → Poly lwe.nfl.nbModuli)
    (query : ℕ → Poly lwe.nfl.nbModuli × Poly lwe.nfl.nbModuli) : Prop :=
  ∀ cm, ∀ cell < lwe.nfl.polyDegree,
    SoundRun (lwe.nfl.moduli cm).p (fun k => data k cm cell) (fun k => (query k).1 cm cell) eltNbr ∧
    SoundRun (lwe.nfl.moduli cm).p (fun k => data k cm cell) (fun k => (query k).2 cm cell) eltNbr

theorem lazyReply_apply (eltNbr : ℕ) (data : ℕ → Poly lwe.nfl.nbModuli)
    (query : ℕ → Poly lwe.nfl.nbModuli × Poly lwe.nfl.nbModuli) (cm : Fin lwe.nfl.nbModuli)
    {cell : ℕ} (cell_lt : cell < lwe.nfl.polyDegree) :
    (lwe.lazyReply eltNbr data query).1 cm cell = shoupAccumulator (lwe.nfl.moduli cm).p
        (fun k => data k cm cell) (fun k => (query k).1 cm cell) eltNbr ∧
      (lwe.lazyReply eltNbr data query).2 cm cell = shoupAccumulator (lwe.nfl.moduli cm).p
        (fun k => data k cm cell) (fun k => (query k).2 cm cell) eltNbr := by
  have components : lwe.lazyReply eltNbr data query =
      (forLoop eltNbr (fun j rop => lwe.nfl.mulandaddPolyNTTShoup rop (data j) (query j).1
          (lwe.nfl.shouppoly (query j).1)) (fun _ _ => 0),
        forLoop eltNbr (fun j rop => lwe.nfl.mulandaddPolyNTTShoup rop (data j) (query j).2
          (lwe.nfl.shouppoly (query j).2)) (fun _ _ => 0)) :=
    forLoop_prod eltNbr
      (fun j rop => lwe.nfl.mulandaddPolyNTTShoup rop (data j) (query j).1
        (lwe.nfl.shouppoly (query j).1))
      (fun j rop => lwe.nfl.mulandaddPolyNTTShoup rop (data j) (query j).2
        (lwe.nfl.shouppoly (query j).2)) _ _
  rw [components]
  exact ⟨forLoop_mulandaddPolyNTTShoup lwe.nfl data (fun k => (query k).1) eltNbr cm cell_lt,
    forLoop_mulandaddPolyNTTShoup lwe.nfl data (fun k => (query k).2) eltNbr cm cell_lt⟩

/-- Of at most five products no accumulation leaves the bounds. -/
theorem soundReply_of_le_five (stored : ∀ j < eltNbr, lwe.Stored (data j) (coefficient j))
    (encrypts : ∀ j < eltNbr, lwe.Encrypts (query j) (v j)) (few : eltNbr ≤ 5) :
    lwe.SoundReply eltNbr data query := by
  intro cm cell cell_lt
  have data_lt : ∀ k < eltNbr, data k cm cell < 2 * (lwe.nfl.moduli cm).p :=
    fun k k_lt => (stored k k_lt cm cell cell_lt).1
  have p_pos := (lwe.nfl.moduli cm).p_pos
  exact ⟨soundRun_of_le_five (lwe.isStandard.p_lt cm) data_lt
      (fun k k_lt => (encrypts k k_lt).reduced_a cm cell cell_lt) p_pos few,
    soundRun_of_le_five (lwe.isStandard.p_lt cm) data_lt
      (fun k k_lt => (encrypts k k_lt).reduced_b cm cell cell_lt) p_pos few⟩

theorem cast_of_soundRun {p : ℕ} {x y : ℕ → ℕ} (sound : SoundRun p x y eltNbr) :
    (shoupAccumulator p x y eltNbr : ZMod p) =
      ∑ j ∈ Finset.range eltNbr, (x j : ZMod p) * y j := by
  rw [(ZMod.natCast_eq_natCast_iff' _ _ p).mpr (sound.congruent eltNbr le_rfl)]
  push_cast
  rfl

/-- A sum within the bounds stands for the negacyclic sum of the products. -/
theorem lazilyEncrypts_lazyReply (stored : ∀ j < eltNbr, lwe.Stored (data j) (coefficient j))
    (encrypts : ∀ j < eltNbr, lwe.Encrypts (query j) (v j))
    (sound : lwe.SoundReply eltNbr data query) :
    lwe.LazilyEncrypts (lwe.lazyReply eltNbr data query)
      (replyPolynomial lwe.nfl.polyDegree eltNbr coefficient v) where
  lazy_a := by
    intro cm cell cell_lt
    rw [(lazyReply_apply eltNbr data query cm cell_lt).1]
    exact (sound cm cell cell_lt).1.bounded eltNbr le_rfl
  lazy_b := by
    intro cm cell cell_lt
    rw [(lazyReply_apply eltNbr data query cm cell_lt).2]
    exact (sound cm cell cell_lt).2.bounded eltNbr le_rfl
  phase_eq := by
    intro cm cell cell_lt
    rw [phase, transformOf_replyPolynomial, (lazyReply_apply eltNbr data query cm cell_lt).1,
      (lazyReply_apply eltNbr data query cm cell_lt).2,
      cast_of_soundRun (sound cm cell cell_lt).1, cast_of_soundRun (sound cm cell cell_lt).2,
      Finset.sum_mul, ← Finset.sum_sub_distrib]
    apply Finset.sum_congr rfl
    intro j j_mem
    have j_lt := Finset.mem_range.mp j_mem
    rw [← (encrypts j j_lt).phase_eq cm cell cell_lt, phase, (stored j j_lt cm cell cell_lt).2]
    ring

end Products

section Decryption

variable {lwe} {cipher other : Poly lwe.nfl.nbModuli × Poly lwe.nfl.nbModuli} {v : ℕ → ℤ}

/-- A ciphertext whose words have been reduced completely. -/
def reduced (cipher : Poly lwe.nfl.nbModuli × Poly lwe.nfl.nbModuli) :
    Poly lwe.nfl.nbModuli × Poly lwe.nfl.nbModuli :=
  (fun cm i => cipher.1 cm i % (lwe.nfl.moduli cm).p,
    fun cm i => cipher.2 cm i % (lwe.nfl.moduli cm).p)

theorem LazilyEncrypts.encrypts_reduced (encrypts : lwe.LazilyEncrypts cipher v) :
    lwe.Encrypts (reduced cipher) v where
  reduced_a := fun cm _ _ => Nat.mod_lt _ (lwe.nfl.moduli cm).p_pos
  reduced_b := fun cm _ _ => Nat.mod_lt _ (lwe.nfl.moduli cm).p_pos
  phase_eq := by
    intro cm cell cell_lt
    rw [← encrypts.phase_eq cm cell cell_lt, phase, phase, reduced, ZMod.natCast_mod,
      ZMod.natCast_mod]

/-- The secret is removed from words that are not reduced, too. -/
theorem LazilyEncrypts.decPhase_spec (encrypts : lwe.LazilyEncrypts cipher v)
    (cm : Fin lwe.nfl.nbModuli) {cell : ℕ} (cell_lt : cell < lwe.nfl.polyDegree) :
    lwe.decPhase cipher cm cell < 2 * (lwe.nfl.moduli cm).p ∧
      (lwe.decPhase cipher cm cell : ZMod (lwe.nfl.moduli cm).p) = lwe.phase cipher cm cell := by
  have p_lt := (lwe.nfl.moduli cm).p_lt
  have secret_lt := lwe.secretKey_lt cm cell cell_lt
  have a_lt := encrypts.lazy_a cm cell cell_lt
  have added := shoupDifference_lt p_lt (show cipher.1 cm cell < 2 ^ 64 by omega) secret_lt
  have difference := submod_lazy p_lt (encrypts.lazy_b cm cell cell_lt)
    (mulandaddShoup 0 (cipher.1 cm cell) (lwe.secretKey cm cell)
      (shoupQuotient (lwe.secretKey cm cell) (lwe.nfl.moduli cm).p) (lwe.nfl.moduli cm).p)
  simp only [decPhase]
  rw [forLoop_update_apply lwe.nfl.polyDegree (fun i _ => submod (cipher.2 cm i)
    (mulandaddShoup 0 (cipher.1 cm i) (lwe.secretKey cm i)
      (shoupQuotient (lwe.secretKey cm i) (lwe.nfl.moduli cm).p) (lwe.nfl.moduli cm).p)
        (lwe.nfl.moduli cm).p), if_pos cell_lt]
  refine ⟨difference.1, ?_⟩
  rw [difference.2, cast_mulandaddShoup p_lt (by omega) secret_lt (by omega), Nat.cast_zero,
    add_zero, phase]

/-- The inverse transform leaves nothing of the difference between lazy and complete reduction. -/
theorem LazilyEncrypts.invntt_decPhase_reduced (encrypts : lwe.LazilyEncrypts cipher v)
    (cm : Fin lwe.nfl.nbModuli) {i : ℕ} (i_lt : i < lwe.nfl.polyDegree) :
    lwe.nfl.invnttAndPowInvPhi (lwe.decPhase cipher) cm i =
      lwe.nfl.invnttAndPowInvPhi (lwe.decPhase (reduced cipher)) cm i := by
  have lazily : lwe.nfl.invnttAndPowInvPhi (lwe.decPhase cipher) cm i < (lwe.nfl.moduli cm).p ∧
      (lwe.nfl.invnttAndPowInvPhi (lwe.decPhase cipher) cm i : ZMod (lwe.nfl.moduli cm).p) =
        (v i : ZMod (lwe.nfl.moduli cm).p) := by
    apply invnttAndPowInvPhi_spec _ i_lt
    intro cell cell_lt
    rcases encrypts.decPhase_spec cm cell_lt with ⟨bounded, residue⟩
    rw [residue, encrypts.phase_eq cm cell cell_lt]
    exact ⟨bounded, rfl⟩
  have completely := encrypts.encrypts_reduced.coefficient cm i_lt
  have residues := (ZMod.natCast_eq_natCast_iff' _ _ _).mp (lazily.2.trans completely.2.symm)
  rwa [Nat.mod_eq_of_lt lazily.1, Nat.mod_eq_of_lt completely.1] at residues

/-- The words that decryption leaves for the given coefficients, as far as they are read. -/
def Decrypted (lwe : NFLLWE) (coefficient : ℕ → ℕ) : ClearData → Prop
  | .uint64 words => lwe.nfl.nbModuli = 1 ∧ ∀ i < lwe.nfl.polyDegree, words i = coefficient i
  | .uint32 words => lwe.nfl.nbModuli ≠ 1 ∧ ∀ i < lwe.nfl.polyDegree, ∀ j < lwe.combien,
      words (i * lwe.combien + j) = coefficient i / 2 ^ (32 * j) % 2 ^ 32

theorem decrypted_uint64 {coefficient words : ℕ → ℕ} :
    lwe.Decrypted coefficient (.uint64 words) ↔
      lwe.nfl.nbModuli = 1 ∧ ∀ i < lwe.nfl.polyDegree, words i = coefficient i := Iff.rfl

theorem decrypted_uint32 {coefficient words : ℕ → ℕ} :
    lwe.Decrypted coefficient (.uint32 words) ↔
      lwe.nfl.nbModuli ≠ 1 ∧ ∀ i < lwe.nfl.polyDegree, ∀ j < lwe.combien,
        words (i * lwe.combien + j) = coefficient i / 2 ^ (32 * j) % 2 ^ 32 := Iff.rfl

/-- Decryption depends on the coefficients only. -/
theorem decrypted_congr
    (same : ∀ cm, ∀ i < lwe.nfl.polyDegree, lwe.nfl.invnttAndPowInvPhi (lwe.decPhase cipher) cm i =
      lwe.nfl.invnttAndPowInvPhi (lwe.decPhase other) cm i)
    {coefficient : ℕ → ℕ} (decrypted : lwe.Decrypted coefficient (lwe.dec other)) :
    lwe.Decrypted coefficient (lwe.dec cipher) := by
  simp only [dec] at decrypted ⊢
  generalize lwe.nfl.invnttAndPowInvPhi (lwe.decPhase cipher) = left at same ⊢
  generalize lwe.nfl.invnttAndPowInvPhi (lwe.decPhase other) = right at same decrypted
  by_cases single : lwe.nfl.nbModuli = 1
  · rw [dif_pos single, decrypted_uint64] at decrypted ⊢
    refine ⟨single, ?_⟩
    intro i i_lt
    rw [← decrypted.2 i i_lt]
    simp only [forLoop_update_apply lwe.nfl.polyDegree
      (fun _ => lwe.maskWord (lwe.nfl.moduli ⟨0, by omega⟩).p), if_pos i_lt]
    rw [same _ i i_lt]
  · rw [dif_neg single, decrypted_uint32] at decrypted ⊢
    have lifted : ∀ i < lwe.nfl.polyDegree, lwe.nfl.poly2mpz left i = lwe.nfl.poly2mpz right i := by
      intro i i_lt
      rw [poly2mpz, poly2mpz]
      congr 1
      funext cm
      exact same cm i i_lt
    refine ⟨single, ?_⟩
    intro i i_lt j j_lt
    rw [← decrypted.2 i i_lt j j_lt]
    apply congrFun
    apply forLoop_congr
    intro k array k_lt
    rw [lifted k k_lt]

/-- A ciphertext in the noise range decrypts to the low bits of its integers. -/
theorem LazilyEncrypts.decrypted (encrypts : lwe.LazilyEncrypts cipher v)
    (absorbs : 2 ^ lwe.aBits ≤ lwe.nfl.moduliProduct)
    (small : ∀ i < lwe.nfl.polyDegree, 2 * |v i| < lwe.nfl.moduliProduct)
    {coefficient : ℕ → ℕ}
    (low : ∀ i < lwe.nfl.polyDegree, v i % 2 ^ lwe.aBits = coefficient i) :
    lwe.Decrypted coefficient (lwe.dec cipher) := by
  apply decrypted_congr encrypts.invntt_decPhase_reduced
  by_cases single : lwe.nfl.nbModuli = 1
  · rcases dec_uint64 single encrypts.encrypts_reduced absorbs small with ⟨words, result, bits⟩
    rw [result, decrypted_uint64]
    refine ⟨single, ?_⟩
    intro i i_lt
    have word := bits i i_lt
    rw [low i i_lt] at word
    exact_mod_cast word
  · rcases dec_uint32 single encrypts.encrypts_reduced absorbs small with ⟨words, result, bits⟩
    rw [result, decrypted_uint32]
    refine ⟨single, ?_⟩
    intro i i_lt j j_lt
    have word := bits i i_lt j j_lt
    rw [low i i_lt] at word
    exact_mod_cast word

end Decryption

end NFLLWE

end Xpir
