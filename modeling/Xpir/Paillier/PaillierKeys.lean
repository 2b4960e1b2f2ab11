import Mathlib.Data.List.Induction
import Mathlib.Data.Nat.Prime.Basic
import Mathlib.Data.Nat.Size
import Xpir.Foundations.Loop

/-!
# Keys of the Paillier cryptosystem

This file contains the public key and the generation of keys. The powers of the
modulus and the generator are computed when they are needed, and a power or a
generator whose lowest word is one counts as not computed yet.

A key generation replaces the modulus and its square. The other powers, and the
generator, stay those of the previous key if they have been computed before.
`alwaysConsistent_iff` says which sequences of calls never show this.
-/

namespace Xpir

/-- Largest exponent of the modulus. -/
def maxS : ℕ := 7

/-- `mpz_get_ui`: the lowest word. -/
def mpzGetUi (value : ℕ) : ℕ := value % 2 ^ 64

structure PaillierPubkey where
  bits : ℕ
  /-- The powers of the modulus, up to exponent `maxS`. -/
  nj : ℕ → ℕ
  initS : ℕ
  /-- The generator. -/
  g : ℕ

namespace PaillierPubkey

def initKey : PaillierPubkey where
  bits := 0
  nj := fun _ => 1
  initS := 1
  g := 1

variable (key : PaillierPubkey)

def initNj (i : ℕ) : PaillierPubkey :=
  { key with nj := Function.update key.nj i (key.nj 1 ^ i) }

/-- The generator, computed if it is not yet known. -/
def completeG : PaillierPubkey :=
  if mpzGetUi key.g = 1 then { key with g := key.nj 1 + 1 } else key

def completeKey (s_ : ℕ) : PaillierPubkey :=
  let s := if maxS < s_ then maxS else s_
  forLoop (s - 1) (fun i key => key.initNj (i + 2)) key.completeG

/-- The key after the call, and the power returned. -/
def getnj (s_ : ℕ) : PaillierPubkey × ℕ :=
  let s := if maxS < s_ then maxS else s_
  let key := if mpzGetUi (key.nj s) = 1 then key.initNj s else key
  (key, key.nj s)

end PaillierPubkey

/-- The primes that the loop of `keygen` ends with. -/
structure KeyPrimes (modulusbits : ℕ) where
  p : ℕ
  q : ℕ
  prime_p : p.Prime
  prime_q : q.Prime
  size_p : p.size = modulusbits / 2
  size_q : q.size = modulusbits / 2
  size_mul : (p * q).size = modulusbits

def KeyPrimes.modulus {modulusbits : ℕ} (primes : KeyPrimes modulusbits) : ℕ :=
  primes.p * primes.q

/-- No modulus ends with a word that is zero. -/
theorem KeyPrimes.mpzGetUi_ne {modulusbits : ℕ} (primes : KeyPrimes modulusbits) :
    mpzGetUi (primes.modulus + 1) ≠ 1 := by
  intro one
  rw [mpzGetUi] at one
  have dvd : 4 * 2 ∣ primes.p * primes.q := by
    change 8 ∣ primes.modulus
    omega
  have even : ∀ {r : ℕ}, r.Prime → 2 ∣ r → r = 2 := fun prime divides =>
    ((Nat.prime_dvd_prime_iff_eq Nat.prime_two prime).mp divides).symm
  have two_dvd : 2 ∣ primes.p * primes.q := (Dvd.intro_left 4 rfl).trans dvd
  rcases (Nat.Prime.dvd_mul Nat.prime_two).mp two_dvd with left | right
  · rw [even primes.prime_p left] at dvd
    have q_eq := even primes.prime_q (by omega)
    rw [q_eq] at dvd
    exact absurd dvd (by decide)
  · rw [even primes.prime_q right] at dvd
    have p_eq := even primes.prime_p (by omega)
    rw [p_eq] at dvd
    exact absurd dvd (by decide)

theorem KeyPrimes.four_le {modulusbits : ℕ} (primes : KeyPrimes modulusbits) :
    4 ≤ primes.modulus :=
  Nat.mul_le_mul primes.prime_p.two_le primes.prime_q.two_le

namespace PaillierPubkey

variable (key : PaillierPubkey)

/-- What `keygen` does to the public key. -/
def keygen {modulusbits : ℕ} (primes : KeyPrimes modulusbits) (initS : ℕ) : PaillierPubkey :=
  let key := (key.getnj 1).1
  { key with
    nj := Function.update key.nj 1 primes.modulus
    bits := modulusbits
    initS := initS }.completeKey (initS + 1)

/-- The calls that change the public key of an adapter. -/
inductive Call
  | setNewParameters {modulusbits : ℕ} (primes : KeyPrimes modulusbits)
  | completeKey (s : ℕ)
  | getnj (s : ℕ)

/-- `setNewParameters` generates keys for plaintexts modulo the modulus itself. -/
def step : Call → PaillierPubkey
  | .setNewParameters primes => key.keygen primes 1
  | .completeKey s => key.completeKey s
  | .getnj s => (key.getnj s).1

def run (calls : List Call) : PaillierPubkey := calls.foldl step initKey

/-- The modulus of the last key generation. -/
def lastModulus (calls : List Call) : Option ℕ :=
  calls.foldl (fun modulus call =>
    match call with
    | .setNewParameters primes => some primes.modulus
    | _ => modulus) none

/-- The generator and the powers are those of a modulus. -/
structure Consistent (n : ℕ) : Prop where
  g_eq : key.g = n + 1
  getnj_eq : ∀ i, 1 ≤ i → i ≤ maxS → (key.getnj i).2 = n ^ i

/-- After each call, the key is consistent with the last modulus that was generated. -/
def AlwaysConsistent (calls : List Call) : Prop :=
  ∀ before, before <+: calls → ∀ n, lastModulus before = some n → (run before).Consistent n

/--
Each key generation either generates the modulus of the one before again, or is the
first one and follows no completion of the key.
-/
def SingleModulus (calls : List Call) : Prop :=
  ∀ (before after : List Call) (modulusbits : ℕ) (primes : KeyPrimes modulusbits),
    calls = before ++ .setNewParameters primes :: after →
      lastModulus before = some primes.modulus ∨
        lastModulus before = none ∧ ∀ s, Call.completeKey s ∉ before

section Operations

variable {key} {n : ℕ}

@[simp]
theorem run_append (before : List Call) (call : Call) :
    run (before ++ [call]) = (run before).step call := by
  simp [run]

@[simp]
theorem lastModulus_append (before : List Call) (call : Call) :
    lastModulus (before ++ [call]) =
      match call with
      | .setNewParameters primes => some primes.modulus
      | _ => lastModulus before := by
  simp [lastModulus]

@[simp]
theorem initNj_g (i : ℕ) : (key.initNj i).g = key.g := rfl

theorem initNj_nj (i : ℕ) : (key.initNj i).nj = Function.update key.nj i (key.nj 1 ^ i) := rfl

@[simp]
theorem completeG_nj : key.completeG.nj = key.nj := by
  rw [completeG]
  split <;> rfl

/-- The powers up to the given exponent are computed anew, and no others. -/
theorem completeKey_spec (s : ℕ) :
    (key.completeKey s).g = key.completeG.g ∧
      ∀ i, (key.completeKey s).nj i =
        if 2 ≤ i ∧ i ≤ s ∧ i ≤ maxS then key.nj 1 ^ i else key.nj i := by
  have run := forLoop_induction ((if maxS < s then maxS else s) - 1)
    (fun i key => key.initNj (i + 2)) key.completeG
    (fun count reached => reached.g = key.completeG.g ∧
      ∀ i, reached.nj i = if 2 ≤ i ∧ i < count + 2 then key.nj 1 ^ i else key.nj i)
    ⟨rfl, fun i => by rw [completeG_nj, if_neg (by omega)]⟩
    (by
      rintro index reached _ ⟨g_eq, nj_eq⟩
      refine ⟨g_eq, ?_⟩
      intro i
      rw [initNj_nj, nj_eq 1, if_neg (by omega)]
      rcases eq_or_ne i (index + 2) with rfl | other
      · rw [Function.update_self, if_pos (by omega)]
      · rw [Function.update_of_ne other, nj_eq]
        exact if_congr (by omega) rfl rfl)
  refine ⟨run.1, ?_⟩
  intro i
  rw [completeKey, run.2]
  apply if_congr _ rfl rfl
  split <;> omega

/-- A power is computed only if it counts as not computed yet. -/
theorem getnj_spec (s : ℕ) :
    (key.getnj s).1.g = key.g ∧ ∀ i, (key.getnj s).1.nj i = key.nj i ∨
      mpzGetUi (key.nj i) = 1 ∧ (key.getnj s).1.nj i = key.nj 1 ^ i := by
  rw [getnj]
  generalize (if maxS < s then maxS else s) = bounded
  simp only
  split
  next unset =>
    refine ⟨rfl, ?_⟩
    intro i
    rw [initNj_nj]
    rcases eq_or_ne i bounded with rfl | other
    · rw [Function.update_self]
      exact Or.inr ⟨unset, rfl⟩
    · rw [Function.update_of_ne other]
      exact Or.inl rfl
  next => exact ⟨rfl, fun _ => Or.inl rfl⟩

theorem getnj_value {i : ℕ} (i_le : i ≤ maxS) :
    (key.getnj i).2 = if mpzGetUi (key.nj i) = 1 then key.nj 1 ^ i else key.nj i := by
  rw [getnj]
  simp only [if_neg (not_lt.mpr i_le)]
  split
  · rw [initNj_nj, Function.update_self]
  · rfl

end Operations

section Consistency

variable {key : PaillierPubkey} {n : ℕ}

/-- What the cached values have in common as long as there is a single modulus. -/
structure Keyed (key : PaillierPubkey) (n : ℕ) : Prop where
  g_eq : key.g = n + 1
  modulus_eq : key.nj 1 = n
  cached : ∀ i, mpzGetUi (key.nj i) = 1 ∨ key.nj i = n ^ i

theorem Keyed.consistent (keyed : key.Keyed n) : key.Consistent n := by
  refine ⟨keyed.g_eq, ?_⟩
  intro i _ i_le
  rw [getnj_value i_le, keyed.modulus_eq]
  split
  next => rfl
  next set => exact (keyed.cached i).resolve_left set

theorem Consistent.modulus_eq (consistent : key.Consistent n) : key.nj 1 = n := by
  have first := consistent.getnj_eq 1 le_rfl (by decide)
  rw [getnj_value (by decide), pow_one, pow_one] at first
  split at first <;> exact first

theorem Keyed.getnj (keyed : key.Keyed n) (s : ℕ) : (key.getnj s).1.Keyed n := by
  rcases @getnj_spec key s with ⟨g_eq, nj_eq⟩
  have powers : ∀ i, (key.getnj s).1.nj i = key.nj i ∨ (key.getnj s).1.nj i = n ^ i := by
    intro i
    rcases nj_eq i with same | ⟨_, computed⟩
    · exact Or.inl same
    · exact Or.inr (by rw [computed, keyed.modulus_eq])
  refine ⟨by rw [g_eq, keyed.g_eq], ?_, ?_⟩
  · rcases powers 1 with same | computed
    · rw [same, keyed.modulus_eq]
    · rw [computed, pow_one]
  · intro i
    rcases powers i with same | computed
    · rw [same]
      exact keyed.cached i
    · exact Or.inr computed

theorem Keyed.completeKey (keyed : key.Keyed n) (s : ℕ) : (key.completeKey s).Keyed n := by
  rcases @completeKey_spec key s with ⟨g_eq, nj_eq⟩
  refine ⟨?_, ?_, ?_⟩
  · rw [g_eq, completeG, keyed.modulus_eq]
    split
    next => rfl
    next => exact keyed.g_eq
  · rw [nj_eq, if_neg (by omega), keyed.modulus_eq]
  · intro i
    rw [nj_eq, keyed.modulus_eq]
    split
    next => exact Or.inr rfl
    next => exact keyed.cached i

/-- A key generation replaces the modulus and its square, and the generator only if it is not set. -/
theorem keygen_spec (key : PaillierPubkey) {modulusbits : ℕ} (primes : KeyPrimes modulusbits) :
    (key.keygen primes 1).g =
        (if mpzGetUi key.g = 1 then primes.modulus + 1 else key.g) ∧
      (key.keygen primes 1).nj 1 = primes.modulus ∧
      (key.keygen primes 1).nj 2 = primes.modulus ^ 2 ∧
      ∀ i, i ≠ 1 → i ≠ 2 → (key.keygen primes 1).nj i = (key.getnj 1).1.nj i := by
  rw [keygen]
  rcases @completeKey_spec { (key.getnj 1).1 with
    nj := Function.update (key.getnj 1).1.nj 1 primes.modulus
    bits := modulusbits
    initS := 1 } (1 + 1) with ⟨g_eq, nj_eq⟩
  refine ⟨?_, ?_, ?_, ?_⟩
  · rw [g_eq, completeG, ← (@getnj_spec key 1).1]
    split
    next => simp
    next => rfl
  · rw [nj_eq, if_neg (by omega)]
    simp
  · rw [nj_eq, if_pos ⟨le_rfl, le_rfl, by decide⟩]
    simp
  · intro i first second
    rw [nj_eq, if_neg (by omega)]
    simp [first]

theorem Keyed.keygen {modulusbits : ℕ} (primes : KeyPrimes modulusbits)
    (keyed : key.Keyed primes.modulus) : (key.keygen primes 1).Keyed primes.modulus := by
  rcases keygen_spec key primes with ⟨g_eq, first, second, others⟩
  refine ⟨?_, first, ?_⟩
  · rw [g_eq, keyed.g_eq, if_neg primes.mpzGetUi_ne]
  · intro i
    rcases eq_or_ne i 1 with rfl | not_first
    · exact Or.inr (by rw [first, pow_one])
    · rcases eq_or_ne i 2 with rfl | not_second
      · exact Or.inr second
      · rw [others i not_first not_second]
        exact (keyed.getnj 1).cached i

/-- The key before the first key generation. -/
structure Unkeyed (key : PaillierPubkey) (completed : Prop) : Prop where
  nj_eq : ∀ i, key.nj i = 1
  g_of_completed : completed → key.g = 2
  g_of_not_completed : ¬ completed → key.g = 1

theorem Unkeyed.getnj {completed : Prop} (unkeyed : key.Unkeyed completed) (s : ℕ) :
    (key.getnj s).1.Unkeyed completed := by
  rcases @getnj_spec key s with ⟨g_eq, nj_eq⟩
  refine ⟨?_, ?_, ?_⟩
  · intro i
    rcases nj_eq i with same | ⟨_, computed⟩
    · rw [same, unkeyed.nj_eq]
    · rw [computed, unkeyed.nj_eq, one_pow]
  · rw [g_eq]
    exact unkeyed.g_of_completed
  · rw [g_eq]
    exact unkeyed.g_of_not_completed

theorem Unkeyed.completeKey {completed : Prop} (unkeyed : key.Unkeyed completed) (s : ℕ) :
    (key.completeKey s).Unkeyed True := by
  rcases @completeKey_spec key s with ⟨g_eq, nj_eq⟩
  refine ⟨?_, ?_, fun impossible => absurd trivial impossible⟩
  · intro i
    rw [nj_eq, unkeyed.nj_eq, unkeyed.nj_eq, one_pow, ite_self]
  · intro _
    rw [g_eq, completeG, unkeyed.nj_eq]
    split
    next => rfl
    next set =>
      by_cases done : completed
      · exact unkeyed.g_of_completed done
      · rw [unkeyed.g_of_not_completed done] at set
        exact absurd rfl set

theorem Unkeyed.keygen {completed : Prop} (unkeyed : key.Unkeyed completed) {modulusbits : ℕ}
    (primes : KeyPrimes modulusbits) (fresh : ¬ completed) :
    (key.keygen primes 1).Keyed primes.modulus := by
  rcases keygen_spec key primes with ⟨g_eq, first, second, others⟩
  refine ⟨?_, first, ?_⟩
  · rw [g_eq, unkeyed.g_of_not_completed fresh, if_pos (by decide)]
  · intro i
    rcases eq_or_ne i 1 with rfl | not_first
    · exact Or.inr (by rw [first, pow_one])
    · rcases eq_or_ne i 2 with rfl | not_second
      · exact Or.inr second
      · rw [others i not_first not_second, (unkeyed.getnj 1).nj_eq]
        exact Or.inl rfl

/-- As long as no key has been generated, the key only depends on whether it has been completed. -/
theorem unkeyed_of_lastModulus (calls : List Call) (none_yet : lastModulus calls = none) :
    (run calls).Unkeyed (∃ s, Call.completeKey s ∈ calls) := by
  induction calls using List.reverseRecOn with
  | nil => exact ⟨fun _ => rfl, by simp, fun _ => rfl⟩
  | append_singleton before call ih =>
      rw [run_append]
      rw [lastModulus_append] at none_yet
      cases call with
      | setNewParameters primes => exact absurd none_yet (by simp)
      | completeKey s =>
          have completed : (∃ s', Call.completeKey s' ∈ before ++ [Call.completeKey s]) ↔ True :=
            iff_true_intro ⟨s, by simp⟩
          rw [completed]
          exact (ih none_yet).completeKey s
      | getnj s =>
          simp only [List.mem_append, List.mem_singleton, reduceCtorEq, or_false]
          exact (ih none_yet).getnj s

end Consistency

section Runs

theorem lastModulus_pos (calls : List Call) {n : ℕ} (last : lastModulus calls = some n) :
    ∃ (modulusbits : ℕ) (primes : KeyPrimes modulusbits), primes.modulus = n := by
  induction calls using List.reverseRecOn with
  | nil => exact absurd last (by simp [lastModulus])
  | append_singleton before call ih =>
      rw [lastModulus_append] at last
      cases call with
      | setNewParameters primes => exact ⟨_, primes, Option.some.inj last⟩
      | completeKey s => exact ih last
      | getnj s => exact ih last

/-- The condition on a sequence of calls is one on each of its prefixes. -/
theorem SingleModulus.of_append {before after : List Call}
    (single : SingleModulus (before ++ after)) : SingleModulus before := by
  intro first second modulusbits primes split
  apply single first (second ++ after)
  rw [split, List.append_assoc, List.cons_append]

theorem SingleModulus.keyed {calls : List Call} (single : SingleModulus calls) {n : ℕ}
    (last : lastModulus calls = some n) : (run calls).Keyed n := by
  induction calls using List.reverseRecOn generalizing n with
  | nil => exact absurd last (by simp [lastModulus])
  | append_singleton before call ih =>
      rw [lastModulus_append] at last
      rw [run_append]
      cases call with
      | setNewParameters primes =>
          obtain rfl : primes.modulus = n := Option.some.inj last
          rcases single before [] _ primes rfl with same | ⟨none_yet, not_completed⟩
          · exact (ih single.of_append same).keygen primes
          · apply (unkeyed_of_lastModulus before none_yet).keygen primes
            rintro ⟨s, completed⟩
            exact not_completed s completed
      | completeKey s => exact (ih single.of_append last).completeKey s
      | getnj s => exact (ih single.of_append last).getnj s

/-- A generator that is set is never that of another modulus. -/
theorem AlwaysConsistent.single {calls : List Call} (always : AlwaysConsistent calls) :
    SingleModulus calls := by
  intro before after modulusbits primes split
  have reached : before ++ [Call.setNewParameters primes] <+: calls :=
    ⟨after, by rw [split, List.append_assoc, List.singleton_append]⟩
  have consistent := always _ reached primes.modulus (by simp)
  have g_eq := consistent.g_eq
  rw [run_append, step, (keygen_spec (run before) primes).1] at g_eq
  cases last : lastModulus before with
  | none =>
      right
      refine ⟨rfl, ?_⟩
      intro s completed
      have unkeyed := unkeyed_of_lastModulus before last
      rw [unkeyed.g_of_completed ⟨s, completed⟩, if_neg (by decide)] at g_eq
      have := primes.four_le
      omega
  | some n =>
      left
      have earlier := always before (List.prefix_append before _ |>.trans reached) n last
      rcases lastModulus_pos before last with ⟨_, previous, rfl⟩
      rw [earlier.g_eq, if_neg previous.mpzGetUi_ne, Nat.add_left_inj] at g_eq
      rw [g_eq]

/--
The public key is consistent after each call if and only if no key generation replaces
a generator that has been set before.
-/
theorem alwaysConsistent_iff (calls : List Call) :
    AlwaysConsistent calls ↔ SingleModulus calls := by
  refine ⟨AlwaysConsistent.single, ?_⟩
  rintro single before ⟨after, rfl⟩ n last
  exact (single.of_append.keyed last).consistent

/-- The primes of a key of six bits. -/
def smallPrimes : KeyPrimes 6 where
  p := 5
  q := 7
  prime_p := by decide
  prime_q := by decide
  size_p := by decide
  size_q := by decide
  size_mul := by decide

/-- The primes of another one. -/
def otherPrimes : KeyPrimes 6 where
  p := 7
  q := 7
  prime_p := by decide
  prime_q := by decide
  size_p := by decide
  size_q := by decide
  size_mul := by decide

theorem not_alwaysConsistent_twice :
    ¬ AlwaysConsistent [.setNewParameters smallPrimes, .setNewParameters otherPrimes] := by
  intro always
  have consistent := always _ List.prefix_rfl 49 rfl
  exact absurd consistent.g_eq (by decide)

end Runs

end PaillierPubkey

end Xpir
