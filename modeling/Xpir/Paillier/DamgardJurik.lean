import Mathlib.Data.Nat.Prime.Factorial
import Xpir.Foundations.Binomial
import Xpir.Foundations.Crt
import Xpir.Paillier.KeyTransport

/-!
# Encryption and decryption of the Paillier adapter

A message is the exponent of the generator `1 + n`, modulo a power of `n`. Decryption raises
the ciphertext to the private exponent, which removes the random factor, and then finds the
exponent of a power of `1 + n`: first modulo `n`, and then modulo one more power in each round.
A round divides the power minus one by `n` and subtracts the binomial terms, which it computes
from the exponent that the round before has found.

Each operation reads the powers of the modulus from the key, which computes them when they are
needed.
-/

namespace Xpir

open Finset

section Numbers

/-- `mpz_mod`: never negative. -/
def mpzMod (a : ℤ) (modulus : ℕ) : ℕ := (a % modulus).toNat

/-- `mpz_divexact` has no defined result for a division with a remainder. -/
def mpzDivexact (a : ℤ) (divisor : ℕ) : Option ℤ :=
  if (divisor : ℤ) ∣ a then some (a / divisor) else none

/-- `mpz_invert` leaves its result undefined if there is no inverse. -/
def mpzInvert (a modulus : ℕ) : Option ℕ :=
  if a.Coprime modulus then some (inverseModulo a modulus) else none

end Numbers

structure PaillierPrvkey where
  d : ℕ

/-- The private key of the primes that `keygen` ends with. -/
def PaillierPrvkey.keygen (p q : ℕ) : PaillierPrvkey where
  d := (p - 1).lcm (q - 1)

namespace PaillierPubkey

/-- What `keygen` makes of a public key that has not been used. -/
def fresh (n modulusbits initS : ℕ) : PaillierPubkey :=
  let key := (initKey.getnj 1).1
  { key with
    nj := Function.update key.nj 1 n
    bits := modulusbits
    initS := initS }.completeKey (initS + 1)

variable (pub : PaillierPubkey)

/-- The power of the modulus that an operation reads. -/
def power (i : ℕ) : ℕ := (pub.getnj i).2

/-- The random number is the last one drawn, which is below the modulus. -/
def enc (m s r : ℕ) : ℕ :=
  let gm := pub.g ^ m % pub.power (s + 1)
  let rns := r ^ pub.power s % pub.power (s + 1)
  gm * rns % pub.power (s + 1)

/-- One more round: the exponent modulo `n ^ j`, from the one modulo `n ^ (j - 1)`. -/
def extract (cprime j iPrev : ℕ) : Option ℕ :=
  (mpzDivexact ((cprime % pub.power (j + 1) : ℕ) - 1) (pub.power 1)).map fun quotient =>
    forLoop (j - 1) (fun k iCur =>
      mpzMod (iCur - (iPrev.choose (k + 2) * pub.power (k + 1) % pub.power j : ℕ)) (pub.power j))
      (mpzMod quotient (pub.power j))

def dec (prv : PaillierPrvkey) (c s : ℕ) : Option ℕ :=
  let cprime := c ^ prv.d % pub.power (s + 1)
  (mpzDivexact ((cprime : ℤ) - 1) (pub.power 1)).bind fun quotient =>
    (forLoop (s - 1) (fun j i => i.bind (pub.extract cprime (j + 2)))
      (some (mpzMod quotient (pub.power 2)))).bind fun iCur =>
        (mpzInvert prv.d (pub.power s)).map fun temp => iCur * temp % pub.power s

def eAdd (a b s : ℕ) : ℕ := a * b % pub.power s

def eMulConst (a n s : ℕ) : ℕ := a ^ n % pub.power s

/-- A ciphertext and the constant it is multiplied with. -/
structure Term where
  c : ℕ
  x : ℕ

/-- The sum of products that the reply generator computes. -/
def sum (s : ℕ) (first : Term) (rest : List Term) : ℕ :=
  rest.foldl (fun result term => pub.eAdd result (pub.eMulConst term.c term.x (s + 1)) (s + 1))
    (pub.eMulConst first.c first.x (s + 1))

end PaillierPubkey

section Numbers

theorem mpzMod_modEq (a : ℤ) {modulus : ℕ} (modulus_pos : 0 < modulus) :
    (mpzMod a modulus : ℤ) ≡ a [ZMOD modulus] := by
  rw [mpzMod, Int.toNat_of_nonneg (Int.emod_nonneg _ (by exact_mod_cast modulus_pos.ne'))]
  exact Int.mod_modEq a modulus

/-- The division is exact for a number that is one modulo the divisor. -/
theorem mpzDivexact_of_modEq {x value n j : ℕ} (n_pos : 0 < n)
    (same : x ≡ 1 + n * value [MOD n ^ (j + 1)]) :
    ∃ quotient, mpzDivexact ((x : ℤ) - 1) n = some quotient ∧
      quotient ≡ value [ZMOD (n ^ j : ℕ)] := by
  rcases Nat.modEq_iff_dvd.mp same with ⟨factor, difference⟩
  have n_ne : (n : ℤ) ≠ 0 := by exact_mod_cast n_pos.ne'
  have product : (x : ℤ) - 1 = n * (value - n ^ j * factor) := by
    push_cast [pow_succ] at difference
    linear_combination -difference
  refine ⟨value - n ^ j * factor, ?_, ?_⟩
  · rw [mpzDivexact, product, if_pos (Dvd.intro _ rfl), Int.mul_ediv_cancel_left _ n_ne]
  · rw [Int.modEq_iff_dvd]
    push_cast
    exact ⟨factor, by ring⟩

theorem mpzInvert_eq {a modulus : ℕ} (coprime : a.Coprime modulus) :
    ∃ inverse, mpzInvert a modulus = some inverse ∧ a * inverse ≡ 1 [MOD modulus] := by
  refine ⟨inverseModulo a modulus, if_pos coprime, ?_⟩
  rcases Nat.eq_zero_or_pos modulus with rfl | modulus_pos
  · rw [Nat.coprime_zero_right] at coprime
    subst coprime
    decide
  · have nonzero : NeZero modulus := ⟨modulus_pos.ne'⟩
    rw [← ZMod.natCast_eq_natCast_iff, inverseModulo, Nat.cast_mul, ZMod.natCast_zmod_val,
      ZMod.coe_mul_inv_eq_one _ coprime, Nat.cast_one]

/-- What the binomial coefficients from the second one on add to an exponent. -/
def corrections (n i count : ℕ) : ℕ := ∑ k ∈ range count, i.choose (k + 2) * n ^ (k + 1)

theorem one_add_pow_modEq_corrections (n i count : ℕ) :
    (1 + n) ^ i ≡ 1 + n * (i + corrections n i count) [MOD n ^ (count + 2)] := by
  have expansion := one_add_pow_modEq n i (count + 2)
  rw [sum_range_succ', sum_range_succ'] at expansion
  convert expansion using 1
  rw [corrections, mul_add, mul_sum, Nat.choose_zero_right, zero_add, Nat.choose_one_right]
  have terms : ∀ k, n * (i.choose (k + 2) * n ^ (k + 1)) =
      i.choose (k + 1 + 1) * n ^ (k + 1 + 1) := fun k => by ring
  simp only [terms]
  ring

end Numbers

namespace PaillierPubkey

variable {pub : PaillierPubkey} {n s i : ℕ}

theorem Consistent.power_eq (consistent : pub.Consistent n) {j : ℕ} (j_pos : 1 ≤ j)
    (j_le : j ≤ maxS) : pub.power j = n ^ j :=
  consistent.getnj_eq j j_pos j_le

section Extraction

variable (consistent : pub.Consistent n) (n_pos : 0 < n) (s_lt : s < maxS)

include consistent n_pos s_lt

/-- The exponent is found modulo one more power of the modulus. -/
theorem extract_eq (coprime : ∀ k ≤ s, k.factorial.Coprime n) {cprime : ℕ}
    (powers : cprime ≡ (1 + n) ^ i [MOD n ^ (s + 1)]) {j iPrev : ℕ} (j_gt : 1 < j) (j_le : j ≤ s)
    (known : iPrev ≡ i [MOD n ^ (j - 1)]) :
    ∃ iCur, pub.extract cprime j iPrev = some iCur ∧ iCur ≡ i [MOD n ^ j] := by
  have modulus_pos : 0 < n ^ j := Nat.pow_pos n_pos
  have known_power := consistent.power_eq (by omega : 1 ≤ j) (by omega)
  have next_power := consistent.power_eq (by omega : 1 ≤ j + 1) (by omega)
  have modulus_eq := consistent.power_eq le_rfl (by decide : 1 ≤ maxS)
  rw [pow_one] at modulus_eq
  have reduced : cprime % n ^ (j + 1) ≡ (1 + n) ^ i [MOD n ^ (j + 1)] :=
    (Nat.mod_modEq _ _).trans (powers.of_dvd (pow_dvd_pow n (by omega)))
  have expansion := one_add_pow_modEq_corrections n i (j - 1)
  rw [(by omega : j - 1 + 2 = j + 1)] at expansion
  rcases mpzDivexact_of_modEq n_pos (reduced.trans expansion) with ⟨quotient, divides, start⟩
  -- Each iteration takes one more correction away.
  have run := forLoop_induction (j - 1)
    (fun k iCur =>
      mpzMod (iCur - (iPrev.choose (k + 2) * pub.power (k + 1) % pub.power j : ℕ)) (pub.power j))
    (mpzMod quotient (pub.power j))
    (fun k iCur => (iCur : ℤ) + corrections n i k ≡
      (i + corrections n i (j - 1) : ℕ) [ZMOD (n ^ j : ℕ)])
    (by
      rw [known_power, corrections, sum_range_zero, Nat.cast_zero, add_zero]
      exact (mpzMod_modEq quotient modulus_pos).trans start)
    (by
      intro k iCur k_lt holds
      have k_power := consistent.power_eq (by omega : 1 ≤ k + 1) (by omega)
      have term : iPrev.choose (k + 2) * n ^ (k + 1) % n ^ j ≡
          i.choose (k + 2) * n ^ (k + 1) [MOD n ^ j] := by
        have choices := choose_modEq (Nat.Coprime.pow_right (j - 1) (coprime (k + 2) (by omega)))
          known
        have shifted := choices.mul_right' (n ^ (k + 1))
        rw [← pow_add] at shifted
        exact (Nat.mod_modEq _ _).trans (shifted.of_dvd (pow_dvd_pow n (by omega)))
      have less := mpzMod_modEq
        (iCur - (iPrev.choose (k + 2) * n ^ (k + 1) % n ^ j : ℕ)) modulus_pos
      have correction := Int.natCast_modEq_iff.mpr term
      rw [known_power, k_power, corrections, sum_range_succ, ← corrections, Nat.cast_add]
      calc _ ≡ ((iCur : ℤ) - (iPrev.choose (k + 2) * n ^ (k + 1) % n ^ j : ℕ)) +
            (corrections n i k + (i.choose (k + 2) * n ^ (k + 1) : ℕ)) [ZMOD (n ^ j : ℕ)] :=
          less.add_right _
        _ ≡ ((iCur : ℤ) - (i.choose (k + 2) * n ^ (k + 1) : ℕ)) +
            (corrections n i k + (i.choose (k + 2) * n ^ (k + 1) : ℕ)) [ZMOD (n ^ j : ℕ)] :=
          (correction.sub_left _).add_right _
        _ = (iCur : ℤ) + corrections n i k := by ring
        _ ≡ _ [ZMOD (n ^ j : ℕ)] := holds)
  rw [Nat.cast_add] at run
  refine ⟨_, ?_, Int.natCast_modEq_iff.mp (Int.ModEq.add_right_cancel' _ run)⟩
  rw [extract, next_power, modulus_eq, divides]
  rfl

end Extraction

/-- Whatever the ciphertext is, only its power by the private exponent matters. -/
theorem dec_eq (consistent : pub.Consistent n) (n_pos : 0 < n) (s_pos : 1 ≤ s)
    (s_lt : s < maxS) (factorials : ∀ k ≤ s, k.factorial.Coprime n) {prv : PaillierPrvkey}
    (coprime : prv.d.Coprime n) {c m : ℕ}
    (powers : c ^ prv.d ≡ (1 + n) ^ (prv.d * m) [MOD n ^ (s + 1)]) :
    pub.dec prv c s = some (m % n ^ s) := by
  have modulus_eq := consistent.power_eq le_rfl (by decide : 1 ≤ maxS)
  have square_eq := consistent.power_eq (by decide : 1 ≤ 2) (by decide)
  have last_eq := consistent.power_eq s_pos s_lt.le
  have next_eq := consistent.power_eq (by omega : 1 ≤ s + 1) s_lt
  rw [pow_one] at modulus_eq
  have reduced := (Nat.mod_modEq (c ^ prv.d) (n ^ (s + 1))).trans powers
  have expansion := one_add_pow_modEq_corrections n (prv.d * m) (s - 1)
  rw [(by omega : s - 1 + 2 = s + 1)] at expansion
  rcases mpzDivexact_of_modEq n_pos (reduced.trans expansion) with ⟨quotient, divides, start⟩
  have first : mpzMod quotient (n ^ 2) ≡ prv.d * m [MOD n ^ (0 + 1)] := by
    have terms : (corrections n (prv.d * m) (s - 1) : ℤ) ≡ 0 [ZMOD (n ^ (0 + 1) : ℕ)] := by
      rw [Int.modEq_zero_iff_dvd, Int.natCast_dvd_natCast]
      exact dvd_sum fun k _ => (pow_dvd_pow n (by omega)).mul_left _
    have power_dvd : ((n ^ (0 + 1) : ℕ) : ℤ) ∣ (n ^ s : ℕ) := by
      exact_mod_cast pow_dvd_pow n s_pos
    have square_dvd : ((n ^ (0 + 1) : ℕ) : ℤ) ∣ (n ^ 2 : ℕ) := by
      exact_mod_cast pow_dvd_pow n (by decide)
    rw [← Int.natCast_modEq_iff]
    calc (mpzMod quotient (n ^ 2) : ℤ)
        ≡ quotient [ZMOD (n ^ (0 + 1) : ℕ)] :=
          (mpzMod_modEq quotient (Nat.pow_pos n_pos)).of_dvd square_dvd
      _ ≡ (prv.d * m + corrections n (prv.d * m) (s - 1) : ℕ) [ZMOD (n ^ (0 + 1) : ℕ)] :=
          start.of_dvd power_dvd
      _ ≡ (prv.d * m : ℕ) [ZMOD (n ^ (0 + 1) : ℕ)] := by
          rw [Nat.cast_add]
          exact (terms.add_left _).trans (by rw [add_zero])
  rcases forLoop_induction (s - 1)
    (fun j i => i.bind (pub.extract (c ^ prv.d % n ^ (s + 1)) (j + 2)))
    (some (mpzMod quotient (n ^ 2)))
    (fun count found => ∃ i, found = some i ∧ i ≡ prv.d * m [MOD n ^ (count + 1)])
    ⟨_, rfl, first⟩
    (by
      rintro count found count_lt ⟨i, rfl, known⟩
      exact extract_eq consistent n_pos s_lt factorials reduced (by omega) (by omega) known)
    with ⟨iCur, found, exponent⟩
  rcases mpzInvert_eq (coprime.pow_right s) with ⟨inverse, inverts, product⟩
  rw [dec, next_eq, modulus_eq, square_eq, last_eq]
  simp only [divides, found, inverts, Option.bind_some, Option.map_some]
  rw [Nat.sub_add_cancel s_pos] at exponent
  have message : iCur * inverse ≡ m [MOD n ^ s] :=
    calc iCur * inverse ≡ prv.d * m * inverse [MOD n ^ s] := exponent.mul_right _
      _ = prv.d * inverse * m := by ring
      _ ≡ 1 * m [MOD n ^ s] := product.mul_right _
      _ = m := Nat.one_mul m
  exact congrArg some message

/-- What decryption depends on: the power of a ciphertext by the private exponent. -/
def Encodes (prv : PaillierPrvkey) (n s c m : ℕ) : Prop :=
  c ^ prv.d ≡ (1 + n) ^ (prv.d * m) [MOD n ^ (s + 1)]

section Operations

variable (consistent : pub.Consistent n) (s_lt : s < maxS)

include consistent s_lt

theorem encodes_eMulConst {prv : PaillierPrvkey} {c m : ℕ} (encodes : Encodes prv n s c m)
    (x : ℕ) : Encodes prv n s (pub.eMulConst c x (s + 1)) (x * m) := by
  rw [Encodes, eMulConst, consistent.power_eq (Nat.succ_le_succ (Nat.zero_le s)) s_lt]
  calc (c ^ x % n ^ (s + 1)) ^ prv.d
      ≡ (c ^ x) ^ prv.d [MOD n ^ (s + 1)] := (Nat.mod_modEq _ _).pow _
    _ = (c ^ prv.d) ^ x := by rw [← pow_mul, ← pow_mul, mul_comm]
    _ ≡ ((1 + n) ^ (prv.d * m)) ^ x [MOD n ^ (s + 1)] := encodes.pow x
    _ = (1 + n) ^ (prv.d * (x * m)) := by rw [← pow_mul]; ring

theorem encodes_eAdd {prv : PaillierPrvkey} {a b m other : ℕ} (left : Encodes prv n s a m)
    (right : Encodes prv n s b other) : Encodes prv n s (pub.eAdd a b (s + 1)) (m + other) := by
  rw [Encodes, eAdd, consistent.power_eq (Nat.succ_le_succ (Nat.zero_le s)) s_lt]
  calc (a * b % n ^ (s + 1)) ^ prv.d
      ≡ (a * b) ^ prv.d [MOD n ^ (s + 1)] := (Nat.mod_modEq _ _).pow _
    _ = a ^ prv.d * b ^ prv.d := mul_pow _ _ _
    _ ≡ (1 + n) ^ (prv.d * m) * (1 + n) ^ (prv.d * other) [MOD n ^ (s + 1)] := left.mul right
    _ = (1 + n) ^ (prv.d * (m + other)) := by rw [← pow_add, ← Nat.mul_add]

theorem encodes_sum {prv : PaillierPrvkey} (first : Term × ℕ) (rest : List (Term × ℕ))
    (encodes : ∀ term ∈ first :: rest, Encodes prv n s term.1.c term.2) :
    Encodes prv n s (pub.sum s first.1 (rest.map Prod.fst))
      ((first :: rest).map fun term => term.1.x * term.2).sum := by
  induction rest using List.reverseRecOn with
  | nil =>
      have single := encodes_eMulConst consistent s_lt (encodes first List.mem_cons_self) first.1.x
      simpa [sum] using single
  | append_singleton before last ih =>
      have earlier := ih fun term mem =>
        encodes term (List.mem_append_left [last] mem)
      have product := encodes_eMulConst consistent s_lt
        (encodes last (List.mem_append_right (first :: before) List.mem_cons_self)) last.1.x
      have added := encodes_eAdd consistent s_lt earlier product
      rw [sum, List.map_append, List.foldl_append]
      simpa [sum, add_assoc] using added

theorem encodes_enc {p q : ℕ} (n_eq : n = p * q) (prime_p : p.Prime) (prime_q : q.Prime)
    (distinct : p ≠ q) (s_pos : 1 ≤ s) {r : ℕ} (coprime : r.Coprime (p * q)) (m : ℕ) :
    Encodes (PaillierPrvkey.keygen p q) n s (pub.enc m s r) m := by
  have removed := pow_mul_lcm_modEq_one prime_p prime_q distinct coprime s
  rw [← n_eq] at removed
  rw [Encodes, enc, consistent.power_eq (Nat.succ_le_succ (Nat.zero_le s)) s_lt,
    consistent.power_eq s_pos s_lt.le, consistent.g_eq]
  have product : (n + 1) ^ m % n ^ (s + 1) * (r ^ n ^ s % n ^ (s + 1)) % n ^ (s + 1) ≡
      (n + 1) ^ m * r ^ n ^ s [MOD n ^ (s + 1)] :=
    (Nat.mod_modEq _ _).trans ((Nat.mod_modEq _ _).mul (Nat.mod_modEq _ _))
  calc ((n + 1) ^ m % n ^ (s + 1) * (r ^ n ^ s % n ^ (s + 1)) % n ^ (s + 1)) ^ _
      ≡ ((n + 1) ^ m * r ^ n ^ s) ^ (PaillierPrvkey.keygen p q).d [MOD n ^ (s + 1)] :=
        product.pow _
    _ = (1 + n) ^ ((PaillierPrvkey.keygen p q).d * m) *
          r ^ (n ^ s * (PaillierPrvkey.keygen p q).d) := by
        rw [mul_pow, ← pow_mul, ← pow_mul, Nat.add_comm n, mul_comm m]
    _ ≡ (1 + n) ^ ((PaillierPrvkey.keygen p q).d * m) * 1 [MOD n ^ (s + 1)] :=
        removed.mul_left _
    _ = (1 + n) ^ ((PaillierPrvkey.keygen p q).d * m) := Nat.mul_one _

end Operations

/-- The cached values of a key that has just been generated are those of its modulus. -/
theorem fresh_keyed (n modulusbits initS : ℕ) :
    (fresh n modulusbits initS).Keyed n ∧ (fresh n modulusbits initS).InArray := by
  have unused : ∀ i, (initKey.getnj 1).1.nj i = 1 := by
    intro i
    rcases (@getnj_spec initKey 1).2 i with cached | ⟨_, computed⟩
    · exact cached
    · rw [computed]
      exact one_pow i
  rcases @completeKey_spec { (initKey.getnj 1).1 with
    nj := Function.update (initKey.getnj 1).1.nj 1 n
    bits := modulusbits
    initS := initS } (initS + 1) with ⟨g_eq, nj_eq⟩
  refine ⟨⟨?_, ?_, ?_⟩, ?_⟩
  · rw [fresh, g_eq, completeG, if_pos (by rw [(@getnj_spec initKey 1).1]; rfl)]
    simp
  · rw [fresh, nj_eq, if_neg (by omega)]
    simp
  · intro i
    rw [fresh, nj_eq]
    simp only [Function.update_self]
    split
    next => exact Or.inr rfl
    next =>
      rcases eq_or_ne i 1 with rfl | other
      · exact Or.inr (by rw [Function.update_self, pow_one])
      · rw [Function.update_of_ne other, unused]
        exact Or.inl rfl
  · intro i beyond
    have other : i ≠ 1 := by
      rw [maxS] at beyond
      omega
    rw [fresh, nj_eq, if_neg (by omega)]
    exact (Function.update_of_ne other _ _).trans (unused i)

/-- A ciphertext that the adapter can have made of a message, after some uses of the key. -/
def IsEncryption (key : PaillierPubkey) (s c m : ℕ) : Prop :=
  ∃ r accesses, r.Coprime (key.nj 1) ∧ c = (key.access accesses).enc m s r

theorem isEncryption_enc (key : PaillierPubkey) {r : ℕ} (coprime : r.Coprime (key.nj 1))
    (m s : ℕ) : key.IsEncryption s (key.enc m s r) m :=
  ⟨r, [], coprime, rfl⟩

/--
With a key that has just been generated, decryption inverts encryption at each level, and the
sum of the products of ciphertexts and constants decrypts to that of the messages.
-/
theorem dec_enc {p q s : ℕ} (prime_p : p.Prime) (prime_q : q.Prime) (distinct : p ≠ q)
    (lt_p : s < p) (lt_q : s < q) (coprime : ((p - 1).lcm (q - 1)).Coprime (p * q))
    (s_pos : 1 ≤ s) (s_lt : s < maxS) (modulusbits initS : ℕ) :
    let key := fresh (p * q) modulusbits initS
    let prv := PaillierPrvkey.keygen p q
    (∀ c m, key.IsEncryption s c m → ∀ accesses,
      (key.access accesses).dec prv c s = some (m % (p * q) ^ s)) ∧
    ∀ (first : Term × ℕ) (rest : List (Term × ℕ)),
      (∀ term ∈ first :: rest, key.IsEncryption s term.1.c term.2) → ∀ during accesses,
        (key.access accesses).dec prv ((key.access during).sum s first.1 (rest.map Prod.fst)) s =
          some (((first :: rest).map fun term => term.1.x * term.2).sum % (p * q) ^ s) := by
  intro key prv
  rcases fresh_keyed (p * q) modulusbits initS with ⟨keyed, inArray⟩
  have consistent : ∀ accesses, (key.access accesses).Consistent (p * q) := fun accesses =>
    (access_spec accesses keyed inArray).1.consistent
  have factorials : ∀ k ≤ s, k.factorial.Coprime (p * q) := fun k k_le =>
    Nat.Coprime.mul_right
      (prime_p.coprime_factorial_of_lt (by omega)).symm
      (prime_q.coprime_factorial_of_lt (by omega)).symm
  have n_pos : 0 < p * q := Nat.mul_pos prime_p.pos prime_q.pos
  have decrypts : ∀ c m, Encodes prv (p * q) s c m → ∀ accesses,
      (key.access accesses).dec prv c s = some (m % (p * q) ^ s) := fun c m encodes accesses =>
    dec_eq (consistent accesses) n_pos s_pos s_lt factorials coprime encodes
  have encrypted : ∀ c m, key.IsEncryption s c m → Encodes prv (p * q) s c m := by
    rintro c m ⟨r, accesses, unit, rfl⟩
    rw [keyed.modulus_eq] at unit
    exact encodes_enc (consistent accesses) s_lt rfl prime_p prime_q distinct s_pos unit m
  refine ⟨fun c m encryption => decrypts c m (encrypted c m encryption), ?_⟩
  intro first rest encryptions during accesses
  apply decrypts
  exact encodes_sum (consistent during) s_lt first rest fun term mem =>
    encrypted _ _ (encryptions term mem)

/-- Two messages of two digits to the base 35, one of them taken three times. -/
theorem dec_enc_thirtyFive :
    (fresh (5 * 7) 6 1).dec (PaillierPrvkey.keygen 5 7) ((fresh (5 * 7) 6 1).sum 2
      ⟨(fresh (5 * 7) 6 1).enc 400 2 3, 3⟩ [⟨(fresh (5 * 7) 6 1).enc 41 2 2, 1⟩]) 2 =
        some 16 := by
  have unit : ∀ r : ℕ, r.Coprime (5 * 7) → r.Coprime ((fresh (5 * 7) 6 1).nj 1) := fun r coprime => by
    rwa [(fresh_keyed (5 * 7) 6 1).1.modulus_eq]
  have first := isEncryption_enc (fresh (5 * 7) 6 1) (unit 3 (by decide)) 400 2
  have second := isEncryption_enc (fresh (5 * 7) 6 1) (unit 2 (by decide)) 41 2
  have decrypts := (dec_enc (by decide : Nat.Prime 5) (by decide : Nat.Prime 7) (by decide)
    (by decide : 2 < 5) (by decide) (by decide) (by decide) (by decide) 6 1).2
    (⟨(fresh (5 * 7) 6 1).enc 400 2 3, 3⟩, 400) [(⟨(fresh (5 * 7) 6 1).enc 41 2 2, 1⟩, 41)]
    (by
      intro term mem
      rcases List.mem_cons.mp mem with rfl | mem
      · exact first
      · rw [List.mem_singleton.mp mem]
        exact second)
    [] []
  exact decrypts.trans (congrArg some (by decide))

end PaillierPubkey

end Xpir
