import Mathlib.Algebra.BigOperators.Group.Finset.Basic
import Xpir.NFLlib.Configure

/-!
# Accumulation of products

A reply is a sum of products of data words and query words, computed by successive
fused multiplications and additions on a word initially null. This file compares
the accumulation with precomputed quotients to the one with complete reductions.

One call subtracts the modulus at most once, but may add slightly more than the
modulus. The accumulator therefore does not stay below twice the modulus on every
run: `soundRun_iff` says on which runs it does, `soundRun_of_le_five` that short
runs are among them.
-/

namespace Xpir

namespace NFLlib

/-- The accumulator after `count` calls of `mulandaddShoup`. -/
def shoupAccumulator (p : ℕ) (x y : ℕ → ℕ) (count : ℕ) : ℕ :=
  forLoop count (fun i rop => mulandaddShoup rop (x i) (y i) (shoupQuotient (y i) p) p) 0

/-- The accumulator after `count` calls of `mulandadd`. -/
def plainAccumulator (p : ℕ) (x y : ℕ → ℕ) (count : ℕ) : ℕ :=
  forLoop count (fun i rop => mulandadd rop (x i) (y i) p) 0

/-- Every call of a run keeps what the decryption relies on. -/
structure SoundRun (p : ℕ) (x y : ℕ → ℕ) (count : ℕ) : Prop where
  /-- No addition wraps. -/
  fits : ∀ i < count, shoupAccumulator p x y i +
    shoupDifference (x i) (y i) (shoupQuotient (y i) p) p < 2 ^ 64
  /-- The accumulator stands for the sum of the products. -/
  congruent : ∀ i ≤ count, shoupAccumulator p x y i % p =
    (∑ j ∈ Finset.range i, x j * y j) % p
  /-- The accumulator agrees with the plain accumulation. -/
  agrees : ∀ i ≤ count, shoupAccumulator p x y i % p = plainAccumulator p x y i
  /-- The accumulator satisfies the input bound of the transforms. -/
  bounded : ∀ i ≤ count, shoupAccumulator p x y i < 2 * p

section Runs

variable {p : ℕ} {x y : ℕ → ℕ}

theorem plainAccumulator_eq_sum (p : ℕ) (x y : ℕ → ℕ) (count : ℕ) :
    plainAccumulator p x y count = (∑ i ∈ Finset.range count, x i * y i) % p := by
  induction count with
  | zero => simp [plainAccumulator]
  | succ count ih =>
      rw [plainAccumulator, forLoop_succ, mulandadd, Finset.sum_range_succ, add_comm (x count * _)]
      change (plainAccumulator p x y count + x count * y count) % p = _
      rw [ih, Nat.mod_add_mod]

theorem shoupAccumulator_succ (p : ℕ) (x y : ℕ → ℕ) (count : ℕ) :
    shoupAccumulator p x y (count + 1) = mulandaddShoup (shoupAccumulator p x y count)
      (x count) (y count) (shoupQuotient (y count) p) p := rfl

theorem mulandaddShoup_of_fits {rop a b p : ℕ}
    (fits : rop + shoupDifference a b (shoupQuotient b p) p < 2 ^ 64) :
    mulandaddShoup rop a b (shoupQuotient b p) p =
      if p ≤ rop + shoupDifference a b (shoupQuotient b p) p then
        rop + shoupDifference a b (shoupQuotient b p) p - p
      else rop + shoupDifference a b (shoupQuotient b p) p := by
  simp only [mulandaddShoup, Nat.mod_eq_of_lt fits]

/-- The bound a call needs is also the bound it gives back. -/
theorem mulandaddShoup_lt_two_mul_iff {rop a b p : ℕ}
    (fits : rop + shoupDifference a b (shoupQuotient b p) p < 2 ^ 64) :
    mulandaddShoup rop a b (shoupQuotient b p) p < 2 * p ↔
      rop + shoupDifference a b (shoupQuotient b p) p < 3 * p := by
  rw [mulandaddShoup_of_fits fits]
  split <;> omega

theorem shoupDifference_of_lt_two_mul {a b : ℕ} (p_lt : p < 2 ^ 61) (a_lt : a < 2 * p)
    (b_lt : b < p) :
    shoupDifference a b (shoupQuotient b p) p = shoupRemainder (2 ^ 64) a b p :=
  shoupDifference_eq (by omega) (by omega) b_lt

/-- One call agrees with the plain one as long as it does not wrap. -/
theorem shoupAccumulator_step {i : ℕ} (p_lt : p < 2 ^ 61) (x_lt : x i < 2 * p) (y_lt : y i < p)
    (fits : shoupAccumulator p x y i +
      shoupDifference (x i) (y i) (shoupQuotient (y i) p) p < 2 ^ 64)
    (agrees : shoupAccumulator p x y i % p = plainAccumulator p x y i) :
    shoupAccumulator p x y (i + 1) % p = plainAccumulator p x y (i + 1) := by
  have residue : (shoupAccumulator p x y (i + 1) : ZMod p) =
      x i * y i + (plainAccumulator p x y i : ZMod p) := by
    rw [shoupAccumulator_succ, cast_mulandaddShoup (by omega) (by omega) y_lt fits, ← agrees,
      ZMod.natCast_mod]
  have plain : plainAccumulator p x y (i + 1) =
      (x i * y i + plainAccumulator p x y i) % p := rfl
  rw [plain]
  apply (ZMod.natCast_eq_natCast_iff' _ _ p).mp
  push_cast
  exact residue

section Bounded

variable {count : ℕ} (p_lt : p < 2 ^ 61) (x_lt : ∀ i < count, x i < 2 * p)
  (y_lt : ∀ i < count, y i < p)

include p_lt x_lt y_lt

theorem SoundRun.below (sound : SoundRun p x y count) :
    ∀ i < count, shoupAccumulator p x y i + shoupRemainder (2 ^ 64) (x i) (y i) p < 3 * p := by
  intro i i_lt
  have bounded := sound.bounded (i + 1) i_lt
  rw [shoupAccumulator_succ, mulandaddShoup_lt_two_mul_iff (sound.fits i i_lt),
    shoupDifference_of_lt_two_mul p_lt (x_lt i i_lt) (y_lt i i_lt)] at bounded
  exact bounded

theorem SoundRun.of_below (p_pos : 0 < p)
    (below : ∀ i < count,
      shoupAccumulator p x y i + shoupRemainder (2 ^ 64) (x i) (y i) p < 3 * p) :
    SoundRun p x y count := by
  have fits : ∀ i < count, shoupAccumulator p x y i +
      shoupDifference (x i) (y i) (shoupQuotient (y i) p) p < 2 ^ 64 := by
    intro i i_lt
    have := below i i_lt
    rw [shoupDifference_of_lt_two_mul p_lt (x_lt i i_lt) (y_lt i i_lt)]
    omega
  have agrees : ∀ i ≤ count, shoupAccumulator p x y i % p = plainAccumulator p x y i := by
    intro i i_le
    induction i with
    | zero => simp [shoupAccumulator, plainAccumulator]
    | succ i ih =>
        exact shoupAccumulator_step p_lt (x_lt i i_le) (y_lt i i_le) (fits i i_le)
          (ih (by omega))
  constructor
  · exact fits
  · intro i i_le
    rw [agrees i i_le, plainAccumulator_eq_sum]
  · exact agrees
  · intro i i_le
    cases i with
    | zero =>
        simp only [shoupAccumulator, forLoop_zero]
        omega
    | succ i =>
        rw [shoupAccumulator_succ, mulandaddShoup_lt_two_mul_iff (fits i i_le),
          shoupDifference_of_lt_two_mul p_lt (x_lt i i_le) (y_lt i i_le)]
        exact below i i_le

/--
A run is sound exactly when no call brings the accumulator, before its single
subtraction, to three times the modulus.
-/
theorem soundRun_iff (p_pos : 0 < p) :
    SoundRun p x y count ↔
      ∀ i < count, shoupAccumulator p x y i + shoupRemainder (2 ^ 64) (x i) (y i) p < 3 * p := by
  constructor
  · intro sound
    exact sound.below p_lt x_lt y_lt
  · intro below
    exact SoundRun.of_below p_lt x_lt y_lt p_pos below

end Bounded

theorem soundRun_iff_three :
    SoundRun (P64 0) (fun _ => P64 0 + 1) (fun _ => 5) 3 ↔
      ∀ i < 3, shoupAccumulator (P64 0) (fun _ => P64 0 + 1) (fun _ => 5) i +
        shoupRemainder (2 ^ 64) (P64 0 + 1) 5 (P64 0) < 3 * P64 0 :=
  soundRun_iff (by decide) (by decide) (by decide) (by decide)

/--
Twenty-nine times the same two operands: the accumulator has grown by about a
quarter of the modulus each time, and the last addition wraps.
-/
theorem not_soundRun_twentyNine :
    4609691222799082826 < 2 * P64 0 ∧ 31392191985310710 < P64 0 ∧
      ¬ SoundRun (P64 0) (fun _ => 4609691222799082826) (fun _ => 31392191985310710) 29 := by
  refine ⟨by decide, by decide, ?_⟩
  intro sound
  have agrees := sound.agrees 29 le_rfl
  revert agrees
  decide +kernel

/-- A call adds at most a quarter of the modulus more than it subtracts. -/
theorem shoupRemainder_quarter {a : ℕ} (p_pos : 0 < p) (p_lt : p < 2 ^ 61) (a_lt : a < 2 * p)
    (b : ℕ) : 4 * shoupRemainder (2 ^ 64) a b p < 5 * p := by
  have bound := shoupRemainder_mul_lt (show 0 < 2 ^ 64 by omega) p_pos a b
  have grows : (2 ^ 64 + a) * p ≤ 5 * 2 ^ 62 * p := Nat.mul_le_mul_right _ (by omega)
  omega

/-- Runs of at most five products are sound. -/
theorem soundRun_of_le_five {count : ℕ} (p_lt : p < 2 ^ 61) (x_lt : ∀ i < count, x i < 2 * p)
    (y_lt : ∀ i < count, y i < p) (p_pos : 0 < p) (count_le : count ≤ 5) :
    SoundRun p x y count := by
  have early : ∀ i < count, (3 + i) * p ≤ 7 * p := by
    intro i i_lt
    exact Nat.mul_le_mul_right _ (by omega)
  have slowly : ∀ i ≤ count, 4 * shoupAccumulator p x y i ≤ (3 + i) * p := by
    intro i i_le
    induction i with
    | zero => simp [shoupAccumulator]
    | succ i ih =>
        have before := ih (by omega)
        have added := shoupRemainder_quarter p_pos p_lt (x_lt i i_le) (y i)
        have start := early i i_le
        have least : 3 * p ≤ (3 + i) * p := Nat.mul_le_mul_right _ (by omega)
        have grown : (3 + (i + 1)) * p = (3 + i) * p + p := by ring
        have exact := shoupDifference_of_lt_two_mul p_lt (x_lt i i_le) (y_lt i i_le)
        rw [shoupAccumulator_succ, mulandaddShoup_of_fits (by rw [exact]; omega), exact, grown]
        split <;> omega
  apply SoundRun.of_below p_lt x_lt y_lt p_pos
  intro i i_lt
  have before := slowly i (by omega)
  have added := shoupRemainder_quarter p_pos p_lt (x_lt i i_lt) (y i)
  have start := early i i_lt
  omega

end Runs

/-! ## Replies -/

/-- Fused multiplication and addition of the coefficients of polynomials. -/
def mulandaddPolyNTTShoup (nfl : NFLlib) (rop op1 op2 op2prime : Poly nfl.nbModuli) :
    Poly nfl.nbModuli := fun cm =>
  forLoop nfl.polyDegree (fun i rop => Function.update rop i
    (mulandaddShoup (rop i) (op1 cm i) (op2 cm i) (op2prime cm i) (nfl.moduli cm).p)) (rop cm)

/-- Each word of a sum of products of polynomials is an accumulator. -/
theorem forLoop_mulandaddPolyNTTShoup (nfl : NFLlib) (data query : ℕ → Poly nfl.nbModuli)
    (count : ℕ) (cm : Fin nfl.nbModuli) {cell : ℕ} (cell_lt : cell < nfl.polyDegree) :
    forLoop count (fun k rop => nfl.mulandaddPolyNTTShoup rop (data k) (query k)
        (fun cm i => shoupQuotient (query k cm i) (nfl.moduli cm).p)) (fun _ _ => 0) cm cell =
      shoupAccumulator (nfl.moduli cm).p (fun k => data k cm cell) (fun k => query k cm cell)
        count := by
  induction count with
  | zero => rfl
  | succ count ih =>
      rw [forLoop_succ, shoupAccumulator_succ, ← ih, mulandaddPolyNTTShoup,
        forLoop_update_apply nfl.polyDegree (fun i word => mulandaddShoup word (data count cm i)
          (query count cm i) (shoupQuotient (query count cm i) (nfl.moduli cm).p)
          (nfl.moduli cm).p), if_pos cell_lt]

end NFLlib

end Xpir
