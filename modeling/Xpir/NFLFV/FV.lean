import Xpir.Foundations.ScaledMessages
import Xpir.NFLFV.NflPoly

/-!
# The FV scheme

A ciphertext consists of two polynomials, and its phase is the first one plus the second one
times the secret key. The phase stands for an integer polynomial: the message, scaled by
`⌊q / t⌋`, plus noise. Encryption adds the noise, and all operations of the server act on the
phase in the same way (`Holds`).

Decryption scales the coefficients of the phase back. It finds the message modulo `t` as long
as the noise, scaled by `t` and corrected for the rounding of `q / t`, is less than `⌊q / 2⌋`,
and never finds it for more than that up to `q` (`decrypt_poly_sumOfProducts_iff`).
-/

namespace Xpir.Nfl

/-- The parameters that `FV.hpp` is compiled with. -/
structure FV where
  poly_p : PolyType
  plainT : WordType
  /-- The modulus of `polyP_p`, which is the plaintext modulus. -/
  plain : Params plainT
  levels_le : poly_p.levels ≤ plain.maxLevels
  plain_le : ∀ cm, plain.p ≤ (poly_p.params cm).p

namespace FV

variable (fv : FV)

theorem unique_coprime {T : WordType} (params : Params T) (left right : Fin 1)
    (distinct : left ≠ right) : params.p.Coprime params.p :=
  absurd (Subsingleton.elim left right) distinct

/-- The plaintexts have one modulus. -/
def polyP_p : PolyType where
  T := fv.plainT
  levels := fv.poly_p.levels
  nmoduli := 1
  params := fun _ => fv.plain
  levels_le := fun _ => fv.levels_le
  coprime := unique_coprime fv.plain

abbrev degree : ℕ := fv.poly_p.degree

/-- The plaintext modulus. -/
abbrev t : ℕ := fv.plain.p

/-- The product of the moduli. -/
abbrev q : ℕ := fv.poly_p.moduli_product

/-- What the constructors of the keys draw: two polynomials of noise and a uniform one. -/
structure Keys where
  sk : ℕ → ℤ
  noise : ℕ → ℤ
  a : fv.poly_p.poly

/-- The noise of one encryption. -/
structure Coins where
  u : ℕ → ℤ
  noise0 : ℕ → ℤ
  noise1 : ℕ → ℤ

structure ciphertext_t where
  c0 : fv.poly_p.poly
  c1 : fv.poly_p.poly
  isnull : Bool

section Model

variable {fv} (keys : fv.Keys)

namespace Keys

/-- The secret key, in NTT form. -/
def value : fv.poly_p.poly := fv.poly_p.ntt_pow_phi (fv.poly_p.setNoise keys.sk)

def b : fv.poly_p.poly :=
  fv.poly_p.ntt_pow_phi (fv.poly_p.setNoise keys.noise) - keys.a * keys.value

/-- The constant `⌊q / t⌋`. -/
def delta (_keys : fv.Keys) : fv.poly_p.poly :=
  fv.poly_p.ntt_pow_phi (fv.poly_p.set_mpz ((fv.q : ℤ) / fv.t))

/-- The bits that the noise may have, according to the public key. -/
def noise_max (_keys : fv.Keys) : ℤ := Nat.size fv.q - 1 - Nat.size fv.t

end Keys

namespace ciphertext_t

/-- `operator+=`, which leaves out what is known to be zero. -/
def add (op ct : fv.ciphertext_t) : fv.ciphertext_t :=
  if ct.isnull = false then ⟨op.c0 + ct.c0, op.c1 + ct.c1, false⟩ else op

def sub (op ct : fv.ciphertext_t) : fv.ciphertext_t :=
  if ct.isnull = false then ⟨op.c0 - ct.c0, op.c1 - ct.c1, false⟩ else op

/-- `operator*=` with a polynomial. -/
def mul (op : fv.ciphertext_t) (multiplier : fv.poly_p.poly) : fv.ciphertext_t :=
  if op.isnull = false then ⟨op.c0 * multiplier, op.c1 * multiplier, op.isnull⟩ else op

end ciphertext_t

def encrypt_poly (coins : Coins) (poly_m : fv.poly_p.poly) : fv.ciphertext_t :=
  let poly_m := fv.poly_p.ntt_pow_phi poly_m
  let u := fv.poly_p.ntt_pow_phi (fv.poly_p.setNoise coins.u)
  { c0 := fv.poly_p.ntt_pow_phi (fv.poly_p.setNoise coins.noise0) + u * keys.b +
      poly_m * keys.delta
    c1 := fv.poly_p.ntt_pow_phi (fv.poly_p.setNoise coins.noise1) + u * keys.a
    isnull := false }

namespace util

def center (op1 op2 op2Div2 : ℤ) : ℤ :=
  if op2Div2 < op1 then op1 - op2 else op1

def div_and_round (op1 op2 op2Div2 : ℤ) : ℤ :=
  let rop := op1.tdiv op2
  let r := op1.tmod op2
  if op2Div2 ≤ |r| then (if 0 < r then rop + 1 else rop - 1) else rop

/-- What is done to each coefficient. -/
def reduce (coefficient multiplier divisor divisorDiv2 mod_init mod_initDiv2 : ℤ) : ℤ :=
  div_and_round (center coefficient mod_init mod_initDiv2 * multiplier) divisor divisorDiv2

end util

/-- The polynomial in the ciphertext, with coefficients modulo `t`. -/
def decrypt_poly (ct : fv.ciphertext_t) (i : ℕ) : ℤ :=
  let numerator := fv.poly_p.invntt_pow_invphi (ct.c0 + ct.c1 * keys.value)
  util.reduce (fv.poly_p.poly2mpz numerator i) fv.t fv.q ((fv.q : ℤ) / 2) fv.q ((fv.q : ℤ) / 2) %
    fv.t

end Model

theorem decrypt_poly_eq_descale {fv : FV} (keys : fv.Keys) (ct : fv.ciphertext_t) (i : ℕ) :
    decrypt_poly keys ct i = descale fv.t fv.q
      (fv.poly_p.poly2mpz (fv.poly_p.invntt_pow_invphi (ct.c0 + ct.c1 * keys.value)) i) := rfl

/-! ## Phases -/

/-- The phase of a ciphertext stands for an integer polynomial. -/
def Holds {fv : FV} (keys : fv.Keys) (ct : fv.ciphertext_t) (v : ℕ → ℤ) : Prop :=
  fv.poly_p.Transforms (ct.c0 + ct.c1 * keys.value) v

/-- The noise that an encryption adds to the scaled message. -/
def freshNoise {fv : FV} (keys : fv.Keys) (coins : Coins) (i : ℕ) : ℤ :=
  negacyclicMul fv.degree coins.u keys.noise i + coins.noise0 i +
    negacyclicMul fv.degree coins.noise1 keys.sk i

section Phases

variable {fv} {keys : fv.Keys} {ct other : fv.ciphertext_t} {v w : ℕ → ℤ}

theorem Holds.congr (holds : Holds keys ct v) (same : ∀ i < fv.degree, v i = w i) :
    Holds keys ct w :=
  PolyType.Transforms.congr holds same

theorem Holds.add (first : Holds keys ct v) (second : Holds keys other w)
    (present : other.isnull = false) : Holds keys (ct.add other) fun i => v i + w i := by
  have phase : (ct.add other).c0 + (ct.add other).c1 * keys.value =
      ct.c0 + ct.c1 * keys.value + (other.c0 + other.c1 * keys.value) := by
    rw [ciphertext_t.add, if_pos present]
    ring
  rw [Holds, phase]
  exact PolyType.Transforms.add first second

theorem Holds.sub (first : Holds keys ct v) (second : Holds keys other w)
    (present : other.isnull = false) : Holds keys (ct.sub other) fun i => v i - w i := by
  have phase : (ct.sub other).c0 + (ct.sub other).c1 * keys.value =
      ct.c0 + ct.c1 * keys.value - (other.c0 + other.c1 * keys.value) := by
    rw [ciphertext_t.sub, if_pos present]
    ring
  rw [Holds, phase]
  exact PolyType.Transforms.sub first second

theorem Holds.mul {multiplier : fv.poly_p.poly} (holds : Holds keys ct v)
    (transforms : fv.poly_p.Transforms multiplier w) (present : ct.isnull = false) :
    Holds keys (ct.mul multiplier) (negacyclicMul fv.degree v w) := by
  have phase : (ct.mul multiplier).c0 + (ct.mul multiplier).c1 * keys.value =
      (ct.c0 + ct.c1 * keys.value) * multiplier := by
    rw [ciphertext_t.mul, if_pos present]
    ring
  rw [Holds, phase]
  exact PolyType.Transforms.mul holds transforms

/-- The constant of the public key scales the message. -/
theorem transforms_scaled {poly_m : fv.poly_p.poly} {m : ℕ → ℤ}
    (residues : ∀ cm, ∀ i < fv.degree, poly_m cm i = m i) :
    fv.poly_p.Transforms (fv.poly_p.ntt_pow_phi poly_m * keys.delta)
      fun i => fv.q / fv.t * m i := by
  have constant : fv.poly_p.Transforms keys.delta fun i =>
      if i = 0 then (fv.q : ℤ) / fv.t else 0 := by
    apply PolyType.transforms_ntt
    intro cm i _
    rw [PolyType.set_mpz]
    split
    next => rfl
    next => rw [Int.cast_zero]
  refine ((PolyType.transforms_ntt residues).mul constant).congr ?_
  intro i i_lt
  rw [negacyclicMul_constant m _ i_lt, mul_comm]

theorem transforms_setNoise (rnd : ℕ → ℤ) :
    fv.poly_p.Transforms (fv.poly_p.ntt_pow_phi (fv.poly_p.setNoise rnd)) rnd :=
  PolyType.transforms_ntt fun _ _ _ => rfl

/-- The phase of an encryption is the scaled message and the noise. -/
theorem holds_encrypt_poly (keys : fv.Keys) (coins : Coins) {poly_m : fv.poly_p.poly} {m : ℕ → ℤ}
    (residues : ∀ cm, ∀ i < fv.degree, poly_m cm i = m i) :
    Holds keys (encrypt_poly keys coins poly_m)
      fun i => fv.q / fv.t * m i + freshNoise keys coins i := by
  have u : fv.poly_p.Transforms (fv.poly_p.ntt_pow_phi (fv.poly_p.setNoise coins.u)) coins.u :=
    transforms_setNoise coins.u
  have first := (u.mul (transforms_setNoise keys.noise)).add (transforms_setNoise coins.noise0)
  have noise := first.add ((transforms_setNoise coins.noise1).mul (transforms_setNoise keys.sk))
  have phase : (encrypt_poly keys coins poly_m).c0 +
      (encrypt_poly keys coins poly_m).c1 * keys.value =
        fv.poly_p.ntt_pow_phi poly_m * keys.delta +
          (fv.poly_p.ntt_pow_phi (fv.poly_p.setNoise coins.u) *
              fv.poly_p.ntt_pow_phi (fv.poly_p.setNoise keys.noise) +
            fv.poly_p.ntt_pow_phi (fv.poly_p.setNoise coins.noise0) +
            fv.poly_p.ntt_pow_phi (fv.poly_p.setNoise coins.noise1) *
              fv.poly_p.ntt_pow_phi (fv.poly_p.setNoise keys.sk)) := by
    simp only [encrypt_poly, Keys.b, Keys.value]
    ring
  rw [Holds, phase]
  exact (transforms_scaled residues).add noise

end Phases

/-! ## Decryption -/

section Decryption

variable {fv} {keys : fv.Keys} {ct : fv.ciphertext_t} {m e : ℕ → ℤ} {i : ℕ}

/-- The noise of a coefficient that matters for decryption. -/
def noiseAt (fv : FV) (m e : ℕ → ℤ) (i : ℕ) : ℤ :=
  scaledNoise fv.t fv.q (m i) (e i)

theorem poly2mpz_phase {v : ℕ → ℤ} (holds : Holds keys ct v) (i_lt : i < fv.degree) :
    (fv.poly_p.poly2mpz (fv.poly_p.invntt_pow_invphi (ct.c0 + ct.c1 * keys.value)) i : ℤ) =
      v i % fv.q :=
  PolyType.poly2mpz_eq fun cm => PolyType.invntt_pow_invphi_apply (holds cm) i_lt

theorem two_le_q (moduli_pos : 0 < fv.poly_p.nmoduli) : 2 ≤ fv.q := by
  have factor : fv.poly_p.get_modulus ⟨0, moduli_pos⟩ ∣ fv.q :=
    Finset.dvd_prod_of_mem _ (Finset.mem_univ _)
  exact (fv.poly_p.params ⟨0, moduli_pos⟩).one_lt.trans_le
    (Nat.le_of_dvd fv.poly_p.moduli_product_pos factor)

/-- A scaled message is found below half of `q`. -/
theorem Holds.decrypt_poly_eq (moduli_pos : 0 < fv.poly_p.nmoduli)
    (holds : Holds keys ct fun i => fv.q / fv.t * m i + e i) (i_lt : i < fv.degree)
    (noise_lt : |fv.noiseAt m e i| < (fv.q : ℤ) / 2) :
    decrypt_poly keys ct i = m i % fv.t := by
  rw [decrypt_poly_eq_descale, poly2mpz_phase holds i_lt]
  exact descale_eq (by exact_mod_cast two_le_q moduli_pos) (Int.mod_modEq _ _) noise_lt

theorem Holds.decrypt_poly_ne (moduli_pos : 0 < fv.poly_p.nmoduli)
    (holds : Holds keys ct fun i => fv.q / fv.t * m i + e i) (i_lt : i < fv.degree)
    (noise_gt : ((fv.q : ℤ) + 1) / 2 < |fv.noiseAt m e i|) (noise_le : |fv.noiseAt m e i| ≤ fv.q) :
    decrypt_poly keys ct i ≠ m i % fv.t := by
  rw [decrypt_poly_eq_descale, poly2mpz_phase holds i_lt]
  exact descale_ne (by exact_mod_cast two_le_q moduli_pos) (by exact_mod_cast fv.plain.one_lt)
    (Int.mod_modEq _ _) noise_gt noise_le

end Decryption

/-! ## Sums of products -/

section Sums

variable {fv} {keys : fv.Keys}

/-- A ciphertext times a polynomial, added to a result. -/
def mulandadd (rop : fv.ciphertext_t) (data : fv.poly_p.poly) (query : fv.ciphertext_t) :
    fv.ciphertext_t :=
  (query.mul data).add rop

def sumOfProducts (data : ℕ → fv.poly_p.poly) (query : ℕ → fv.ciphertext_t) (count : ℕ) :
    fv.ciphertext_t :=
  forLoop count (fun k rop => mulandadd rop (data k) (query k)) ⟨0, 0, false⟩

/-- The sum of the products of some polynomials. -/
def productSum (size count : ℕ) (left right : ℕ → ℕ → ℤ) (i : ℕ) : ℤ :=
  ∑ k ∈ Finset.range count, negacyclicMul size (left k) (right k) i

theorem negacyclicMul_add_left (size : ℕ) (left other right : ℕ → ℤ) (i : ℕ) :
    negacyclicMul size (fun i => left i + other i) right i =
      negacyclicMul size left right i + negacyclicMul size other right i := by
  simp only [negacyclicMul, add_mul, Finset.sum_add_distrib]

theorem negacyclicMul_smul_left (size : ℕ) (factor : ℤ) (left right : ℕ → ℤ) (i : ℕ) :
    negacyclicMul size (fun i => factor * left i) right i =
      factor * negacyclicMul size left right i := by
  simp only [negacyclicMul, mul_assoc, Finset.mul_sum]

theorem abs_productSum_le {size count : ℕ} {left right : ℕ → ℕ → ℤ} {leftBound rightBound : ℤ}
    (left_le : ∀ k < count, ∀ i < size, |left k i| ≤ leftBound)
    (right_le : ∀ k < count, ∀ i < size, |right k i| ≤ rightBound) {i : ℕ} (i_lt : i < size) :
    |productSum size count left right i| ≤ count * (size * (leftBound * rightBound)) := by
  calc |productSum size count left right i|
      ≤ ∑ k ∈ Finset.range count, |negacyclicMul size (left k) (right k) i| :=
        Finset.abs_sum_le_sum_abs _ _
    _ ≤ ∑ _k ∈ Finset.range count, size * (leftBound * rightBound) := by
        apply Finset.sum_le_sum
        intro k k_mem
        have k_lt := Finset.mem_range.mp k_mem
        exact abs_negacyclicMul_le (left_le k k_lt) (right_le k k_lt) i_lt
    _ = count * (size * (leftBound * rightBound)) := by
        rw [Finset.sum_const, Finset.card_range, nsmul_eq_mul]

/-- The noise that matters is small if the noise and the message have room in `q`. -/
theorem abs_noiseAt_lt {m e : ℕ → ℤ} {i messageBound noiseBound : ℕ}
    (room : fv.t * noiseBound + (fv.t - 1) * messageBound < fv.q / 2)
    (message_le : |m i| ≤ messageBound) (noise_le : |e i| ≤ noiseBound) :
    |fv.noiseAt m e i| < (fv.q : ℤ) / 2 := by
  have t_int : (0 : ℤ) < fv.t := by
    exact_mod_cast Nat.zero_lt_of_lt fv.plain.one_lt
  have remainder_nonneg := Int.emod_nonneg (fv.q : ℤ) t_int.ne'
  have remainder_lt := Int.emod_lt_of_pos (fv.q : ℤ) t_int
  have first : |(fv.t : ℤ) * e i| ≤ fv.t * noiseBound := by
    rw [abs_mul, abs_of_pos t_int]
    exact mul_le_mul_of_nonneg_left noise_le t_int.le
  have second : |(fv.q : ℤ) % fv.t * m i| ≤ ((fv.t - 1 : ℕ) : ℤ) * messageBound := by
    rw [abs_mul, abs_of_nonneg remainder_nonneg]
    exact mul_le_mul (by omega) message_le (abs_nonneg _) (Int.natCast_nonneg _)
  have limit : (fv.t : ℤ) * noiseBound + ((fv.t - 1 : ℕ) : ℤ) * messageBound <
      (fv.q : ℤ) / 2 := by
    exact_mod_cast room
  rw [noiseAt, scaledNoise]
  exact ((abs_sub _ _).trans (add_le_add first second)).trans_lt limit

/-- The message and the noise of a sum are the sums of the products. -/
theorem holds_sumOfProducts {data : ℕ → fv.poly_p.poly} {query : ℕ → fv.ciphertext_t}
    {m e d : ℕ → ℕ → ℤ} {count : ℕ} (present : ∀ k < count, (query k).isnull = false)
    (queries : ∀ k < count, Holds keys (query k) fun i => fv.q / fv.t * m k i + e k i)
    (transforms : ∀ k < count, fv.poly_p.Transforms (data k) (d k)) :
    (sumOfProducts data query count).isnull = false ∧
      Holds keys (sumOfProducts data query count) fun i =>
        fv.q / fv.t * productSum fv.degree count m d i + productSum fv.degree count e d i := by
  rw [sumOfProducts]
  refine forLoop_induction count _ _ (fun done (rop : fv.ciphertext_t) => rop.isnull = false ∧
    Holds keys rop fun i => fv.q / fv.t * productSum fv.degree done m d i +
      productSum fv.degree done e d i) ?_ ?_
  · refine ⟨rfl, ?_⟩
    have phase : (0 : fv.poly_p.poly) + 0 * keys.value = 0 := by ring
    rw [Holds, phase]
    refine PolyType.transforms_zero.congr ?_
    intro i _
    simp [productSum]
  · rintro done rop done_lt ⟨filled, holds⟩
    have product := (queries done done_lt).mul (transforms done done_lt) (present done done_lt)
    refine ⟨by rw [mulandadd, ciphertext_t.add, if_pos filled], ?_⟩
    refine (product.add holds filled).congr ?_
    intro i _
    rw [negacyclicMul_add_left, negacyclicMul_smul_left, productSum, productSum, productSum,
      productSum, Finset.sum_range_succ, Finset.sum_range_succ]
    ring

/--
A coefficient of a sum of products of polynomials and encryptions decrypts to the one of the
plaintexts exactly if its noise is less than half of `q`, apart from noise of half of `q`.
-/
theorem decrypt_poly_sumOfProducts_iff (moduli_pos : 0 < fv.poly_p.nmoduli) (keys : fv.Keys)
    (coins : ℕ → Coins) (m d : ℕ → ℕ → ℤ) (count : ℕ) {i : ℕ} (i_lt : i < fv.degree) :
    let noise := fv.noiseAt (productSum fv.degree count m d)
      (productSum fv.degree count (fun k => freshNoise keys (coins k)) d) i
    |noise| ≤ fv.q → |noise| ≠ (fv.q : ℤ) / 2 → |noise| ≠ ((fv.q : ℤ) + 1) / 2 →
      (decrypt_poly keys (sumOfProducts (fun k => fv.poly_p.ntt_pow_phi (fv.poly_p.mpz2poly (d k)))
          (fun k => encrypt_poly keys (coins k) (fv.poly_p.mpz2poly (m k))) count) i =
        productSum fv.degree count m d i % fv.t ↔ |noise| < (fv.q : ℤ) / 2) := by
  intro noise noise_le inner outer
  have holds := (@holds_sumOfProducts fv keys
    (fun k => fv.poly_p.ntt_pow_phi (fv.poly_p.mpz2poly (d k)))
    (fun k => encrypt_poly keys (coins k) (fv.poly_p.mpz2poly (m k))) m
    (fun k => freshNoise keys (coins k)) d count (fun _ _ => rfl)
    (fun k _ => holds_encrypt_poly keys (coins k) fun _ _ _ => rfl)
    (fun _ _ => PolyType.transforms_ntt fun _ _ _ => rfl)).2
  constructor
  · intro right
    by_contra large
    exact holds.decrypt_poly_ne moduli_pos i_lt (by change _ < |noise|; omega) noise_le right
  · exact holds.decrypt_poly_eq moduli_pos i_lt

end Sums

/-! ## The parameter sets -/

section Parameters

theorem p16_le (cm : Fin 2) : p16 ≤ p64 cm := by
  revert cm
  decide

theorem p32_le (cm : Fin 2) : p32 ≤ p64 cm := by
  revert cm
  decide

theorem ten_le_maxLevels16 : 10 ≤ params16.maxLevels := by decide

theorem eleven_le_maxLevels16 : 11 ≤ params16.maxLevels := by decide

theorem eleven_le_maxLevels32 : 11 ≤ params32.maxLevels := by decide

theorem ten_le_twenty : 10 ≤ 20 := by decide

theorem eleven_le_twenty : 11 ≤ 20 := by decide

def FV1024_62 : FV where
  poly_p := poly_from_modulus 10 1 ten_le_twenty one_le_two
  plainT := .uint16
  plain := params16
  levels_le := ten_le_maxLevels16
  plain_le := fun cm => p16_le (cm.castLE one_le_two)

def FV2048_62 : FV where
  poly_p := poly_from_modulus 11 1 eleven_le_twenty one_le_two
  plainT := .uint16
  plain := params16
  levels_le := eleven_le_maxLevels16
  plain_le := fun cm => p16_le (cm.castLE one_le_two)

def FV2048_124 : FV where
  poly_p := poly_from_modulus 11 2 eleven_le_twenty le_rfl
  plainT := .uint32
  plain := params32
  levels_le := eleven_le_maxLevels32
  plain_le := fun cm => p32_le cm

theorem FV1024_62_q : FV1024_62.q = 4611686018326724609 := by
  change ∏ cm : Fin 1, p64 (cm.castLE one_le_two) = _
  simp [p64]

/-- Keys with small coefficients, and noise. -/
def smallKeys (fv : FV) : fv.Keys where
  sk := fun i => (i % 3 : ℕ) - 1
  noise := fun i => (i % 5 : ℕ) - 2
  a := fun _ i => (7 * i + 3 : ℕ)

/-- Coins with small coefficients. -/
def smallCoins : Coins where
  u := fun i => 1 - (i % 3 : ℕ)
  noise0 := fun i => (i % 7 : ℕ) - 3
  noise1 := fun i => 2 - (i % 5 : ℕ)

theorem abs_freshNoise_small (fv : FV) {i : ℕ} (i_lt : i < fv.degree) :
    |freshNoise (smallKeys fv) smallCoins i| ≤ 4 * fv.degree + 3 := by
  have first := @abs_negacyclicMul_le fv.degree smallCoins.u (smallKeys fv).noise 1 2
    (fun i _ => abs_le.mpr (by dsimp only [smallCoins]; omega))
    (fun i _ => abs_le.mpr (by dsimp only [smallKeys]; omega)) i i_lt
  have second := @abs_negacyclicMul_le fv.degree smallCoins.noise1 (smallKeys fv).sk 2 1
    (fun i _ => abs_le.mpr (by dsimp only [smallCoins]; omega))
    (fun i _ => abs_le.mpr (by dsimp only [smallKeys]; omega)) i i_lt
  have added : |smallCoins.noise0 i| ≤ 3 := abs_le.mpr (by dsimp only [smallCoins]; omega)
  rw [freshNoise]
  have triangle := abs_add_three (negacyclicMul fv.degree smallCoins.u (smallKeys fv).noise i)
    (smallCoins.noise0 i) (negacyclicMul fv.degree smallCoins.noise1 (smallKeys fv).sk i)
  omega

/-- Three products of plaintexts with all coefficients, at the coefficient of `X ^ 5`. -/
theorem decrypt_poly_sumOfProducts_iff_three :
    let m : ℕ → ℕ → ℤ := fun k i => ((i + k) % 4096 : ℕ)
    let d : ℕ → ℕ → ℤ := fun k i => (i * (k + 1) % 4096 : ℕ)
    decrypt_poly (smallKeys FV1024_62) (sumOfProducts
        (fun k => FV1024_62.poly_p.ntt_pow_phi (FV1024_62.poly_p.mpz2poly (d k)))
        (fun k => encrypt_poly (smallKeys FV1024_62) smallCoins
          (FV1024_62.poly_p.mpz2poly (m k))) 3) 5 =
      productSum FV1024_62.degree 3 m d 5 % FV1024_62.t := by
  intro m d
  have five_lt : 5 < FV1024_62.degree := by decide
  have m_le : ∀ k < 3, ∀ i < FV1024_62.degree, |m k i| ≤ 4095 := fun k _ i _ =>
    abs_le.mpr (by dsimp only [m]; omega)
  have d_le : ∀ k < 3, ∀ i < FV1024_62.degree, |d k i| ≤ 4095 := fun k _ i _ =>
    abs_le.mpr (by dsimp only [d]; omega)
  have message_le := abs_productSum_le m_le d_le five_lt
  have noise_le := abs_productSum_le
    (fun _ (_ : _ < 3) i i_lt => abs_freshNoise_small FV1024_62 i_lt) d_le five_lt
  have noise_lt := @abs_noiseAt_lt FV1024_62 (productSum FV1024_62.degree 3 m d)
    (productSum FV1024_62.degree 3 (fun _ => freshNoise (smallKeys FV1024_62) smallCoins) d) 5
    (3 * (1024 * (4095 * 4095))) (3 * (1024 * (4099 * 4095)))
    (by rw [FV1024_62_q]; decide) message_le noise_le
  have two_le : 2 ≤ (FV1024_62.q : ℤ) := by exact_mod_cast two_le_q Nat.one_pos
  refine (decrypt_poly_sumOfProducts_iff Nat.one_pos (smallKeys FV1024_62) (fun _ => smallCoins)
    m d 3 five_lt ?_ ?_ ?_).mpr noise_lt
  all_goals omega

end Parameters

end FV

end Xpir.Nfl
