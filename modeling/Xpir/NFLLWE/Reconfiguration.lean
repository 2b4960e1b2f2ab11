import Mathlib.Data.List.GetD
import Xpir.Foundations.Heap
import Xpir.NFLLWE.Parameters

/-!
# Changing the parameters of the LWE cryptosystem

The cryptosystem and its instance of the library both hold a degree and a number of
moduli, and the cryptosystem holds a pointer to the moduli of the instance. Setting all
parameters brings both in line and draws a new key. Setting the degree alone makes the
instance allocate its moduli anew; the pointer and the key of the cryptosystem stay as
they are.
-/

namespace Xpir

open NFLlib

/-! ## The instance of the library -/

/-- The part of an `NFLlib_old` object that the cryptosystem depends on. -/
structure NFLInstance where
  alreadyInit : ℕ
  nbModuli : ℕ
  polyDegree : ℕ
  moduli : Option ℕ
  nbModuli_le : nbModuli ≤ kMaxNbModuli

namespace NFLInstance

def fresh : NFLInstance := ⟨0, 0, 0, none, Nat.zero_le _⟩

/-- The moduli that an instance is configured with. -/
def moduliWords (nfl : NFLInstance) : List ℕ :=
  List.ofFn fun cm : Fin nfl.nbModuli => P64 (Fin.castLE nfl.nbModuli_le cm)

/-- The tables of the transforms, which only the instance refers to, are left out. -/
def freeNTTMemory (heap : Heap ℕ) (nfl : NFLInstance) : Option (Heap ℕ) :=
  if nfl.alreadyInit = 0 then some heap else nfl.moduli.bind heap.free

def configureNTT (heap : Heap ℕ) (nfl : NFLInstance) : Option (Heap ℕ × NFLInstance) :=
  (nfl.freeNTTMemory heap).map fun heap =>
    (heap.alloc nfl.moduliWords,
      { nfl with alreadyInit := nfl.nbModuli, moduli := some heap.next })

/-- The program exits if the size is not a multiple of that of a modulus. -/
def setNewParameters (heap : Heap ℕ) (nfl : NFLInstance)
    (polyDegree aggregatedModulusBitsize : ℕ) : Option (Heap ℕ × NFLInstance) :=
  if aggregatedModulusBitsize % kModulusBitsize ≠ 0 then none
  else if inRange : aggregatedModulusBitsize / kModulusBitsize ≤ kMaxNbModuli then
    configureNTT heap
      { nfl with
        polyDegree
        nbModuli := aggregatedModulusBitsize / kModulusBitsize
        nbModuli_le := inRange }
  else none

def setpolyDegree (heap : Heap ℕ) (nfl : NFLInstance) (polyDegree : ℕ) :
    Option (Heap ℕ × NFLInstance) :=
  configureNTT heap { nfl with polyDegree }

/-- The words of a random polynomial, reduced by the moduli. -/
def randomWords (nfl : NFLInstance) (rnd : ℕ → ℕ) : List ℕ :=
  (List.range (nfl.polyDegree * nfl.nbModuli)).map fun j =>
    boundedWord (nfl.moduliWords.getD (j / nfl.polyDegree) 0) (rnd j)

end NFLInstance

/-! ## The cryptosystem -/

/-- The arrays that belong to a key; a row of the key points into a single block. -/
structure KeyPointers where
  Abit_mod : ℕ
  Abit_mod_shoup : ℕ
  secretKey : List (ℕ × ℕ)
  secretKeyShoup : List ℕ

/-- An `NFLLWE` object, with the memory it lives in; what is not initialised is missing. -/
structure LweObject where
  heap : Heap ℕ
  nflInstance : NFLInstance
  noiseUB : ℕ
  absPCBitsize : ℤ
  polyDegree : ℕ
  nbModuli : Option ℕ
  oldNbModuli : ℕ
  moduli : Option ℕ
  keys : Option KeyPointers

namespace LweObject

def fresh : LweObject where
  heap := Heap.empty
  nflInstance := NFLInstance.fresh
  noiseUB := 0
  absPCBitsize := -1
  polyDegree := 0
  nbModuli := none
  oldNbModuli := 0
  moduli := none
  keys := none

/-- The blocks that `clearSecretKeys` frees. -/
def KeyPointers.freed (keys : KeyPointers) (oldNbModuli : ℕ) : List ℕ :=
  [keys.Abit_mod, keys.Abit_mod_shoup] ++ (keys.secretKey.take 1).map Prod.fst ++
    keys.secretKeyShoup.take oldNbModuli

variable (lwe : LweObject)

def clearSecretKeys : Option LweObject :=
  if lwe.oldNbModuli = 0 then some lwe
  else
    lwe.keys.bind fun keys =>
      (lwe.heap.freeAll (KeyPointers.freed keys lwe.oldNbModuli)).map fun heap =>
        { lwe with heap, oldNbModuli := 0 }

/-- One round of the loop of `recomputeNoiseAmplifiers`; `mpz_import` replaces the power of two. -/
def amplifierStep (moduli : ℕ) (keys : KeyPointers) (state : Heap ℕ × ℕ) (cm : ℕ) :
    Option (Heap ℕ × ℕ) :=
  (state.1.read moduli cm).bind fun p =>
    let tmpz1 := state.2 % p
    (state.1.write keys.Abit_mod cm tmpz1).bind fun heap =>
      (heap.write keys.Abit_mod_shoup cm (shoupQuotient tmpz1 p)).map fun heap => (heap, tmpz1)

def recomputeNoiseAmplifiers : Option LweObject :=
  if lwe.polyDegree = 0 then none -- the bits of a coefficient are divided by the degree
  else
    lwe.nbModuli.bind fun nbModuli => lwe.moduli.bind fun moduli => lwe.keys.bind fun keys =>
      ((List.range nbModuli).foldlM (amplifierStep moduli keys) (lwe.heap, 0)).map fun final =>
        { lwe with heap := final.1 }

/-- The quotients for a row of the key. -/
def shoupRow (heap : Heap ℕ) (moduli key cm polyDegree : ℕ) : Option (List ℕ) :=
  (List.range polyDegree).mapM fun i =>
    (heap.read key (polyDegree * cm + i)).bind fun word =>
      (heap.read moduli cm).map fun p => shoupQuotient word p

/-- The loop that sets the rows of the key and computes their quotients. -/
def keyRows (moduli key polyDegree : ℕ) (state : Heap ℕ × KeyPointers) (cm : ℕ) :
    Option (Heap ℕ × KeyPointers) :=
  (shoupRow state.1 moduli key cm polyDegree).map fun row =>
    (state.1.alloc row,
      { state.2 with
        secretKey := state.2.secretKey ++ [(key, polyDegree * cm)]
        secretKeyShoup := state.2.secretKeyShoup ++ [state.1.next] })

/-- The arrays of a new key; those of the amplifiers are written before they are read. -/
def allocateKeys (rnd : ℕ → ℕ) : Option LweObject :=
  lwe.nbModuli.bind fun nbModuli => lwe.moduli.bind fun moduli =>
    let Abit_mod := lwe.heap.next
    let heap := lwe.heap.alloc (List.replicate nbModuli 0)
    let Abit_mod_shoup := heap.next
    let heap := heap.alloc (List.replicate nbModuli 0)
    let key := heap.next
    let heap := heap.alloc (lwe.nflInstance.randomWords rnd)
    ((List.range nbModuli).foldlM (keyRows moduli key lwe.polyDegree)
      (heap, ⟨Abit_mod, Abit_mod_shoup, [], []⟩)).map fun final =>
        { lwe with heap := final.1, keys := some final.2 }

def setNewParameters (securityBits polyDegree aggregatedModulusBitsize : ℕ) (absPCBitsize : ℤ)
    (rnd : ℕ → ℕ) : Option LweObject :=
  (lwe.nflInstance.setNewParameters lwe.heap polyDegree aggregatedModulusBitsize).bind
    fun (heap, nflInstance) =>
      (clearSecretKeys
        { lwe with
          heap
          nflInstance
          noiseUB := NFLLWE.noiseUpperBound securityBits
          absPCBitsize
          polyDegree }).bind fun lwe =>
        (allocateKeys
          { lwe with
            nbModuli := some nflInstance.nbModuli
            oldNbModuli := nflInstance.nbModuli
            moduli := nflInstance.moduli } rnd).bind recomputeNoiseAmplifiers

def setpolyDegree (polyDegree : ℕ) : Option LweObject :=
  (lwe.nflInstance.setpolyDegree lwe.heap polyDegree).map fun (heap, nflInstance) =>
    { lwe with heap, nflInstance, polyDegree }

def setandgetAbsBitPerCiphertext (elt_nbr : ℕ) : Option LweObject :=
  lwe.nbModuli.bind fun nbModuli =>
    recomputeNoiseAmplifiers
      { lwe with
        absPCBitsize :=
          NFLLWE.nbrBit (nbModuli * kModulusBitsize) elt_nbr lwe.noiseUB lwe.polyDegree }

end LweObject

/-- A call that changes the parameters, with a degree and a number of moduli of the library. -/
inductive LweCall where
  | setNewParameters (securityBits : ℕ) (polyDegree : Set.Icc 512 8192)
      (nbModuli : Set.Icc 1 kMaxNbModuli) (absPCBitsize : ℤ) (rnd : ℕ → ℕ)
  | setpolyDegree (polyDegree : Set.Icc 512 8192)
  | setandgetAbsBitPerCiphertext (elt_nbr : ℕ)

def LweCall.run (lwe : LweObject) : LweCall → Option LweObject
  | .setNewParameters securityBits polyDegree nbModuli absPCBitsize rnd =>
      lwe.setNewParameters securityBits polyDegree (kModulusBitsize * nbModuli) absPCBitsize rnd
  | .setpolyDegree polyDegree => lwe.setpolyDegree polyDegree
  | .setandgetAbsBitPerCiphertext elt_nbr => lwe.setandgetAbsBitPerCiphertext elt_nbr

/-- The object after a number of calls. -/
def LweObject.after (calls : List LweCall) : Option LweObject :=
  calls.foldlM LweCall.run LweObject.fresh

/--
The two objects agree, and the rows of the key and of its quotients are there for all
moduli and lie in memory that is in use.
-/
structure LweObject.Consistent (lwe : LweObject) : Prop where
  polyDegree_eq : lwe.polyDegree = lwe.nflInstance.polyDegree
  nbModuli_eq : lwe.nbModuli = some lwe.nflInstance.nbModuli
  moduli_eq : lwe.moduli = lwe.nflInstance.moduli
  moduli_used : ∃ moduli, lwe.moduli = some moduli ∧
    lwe.heap.blocks moduli = some lwe.nflInstance.moduliWords
  key_used : ∃ keys, lwe.keys = some keys ∧
    (∀ address ∈ keys.Abit_mod :: keys.Abit_mod_shoup :: keys.secretKeyShoup ++
      keys.secretKey.map Prod.fst, (lwe.heap.blocks address).isSome) ∧
    ∀ cm < lwe.nflInstance.nbModuli, ∀ i < lwe.polyDegree, ∃ row shoup word p,
      keys.secretKey[cm]? = some row ∧ keys.secretKeyShoup[cm]? = some shoup ∧
      lwe.nflInstance.moduliWords[cm]? = some p ∧
      lwe.heap.read row.1 (row.2 + i) = some word ∧ word < p ∧
      lwe.heap.read shoup i = some (word * 2 ^ 64 / p)

/-- All parameters have been set since the degree was last set alone. -/
def configured (calls : List LweCall) : Bool :=
  calls.foldl (fun configured call =>
    match call with
    | .setNewParameters .. => true
    | .setpolyDegree _ => false
    | .setandgetAbsBitPerCiphertext _ => configured) false

/--
All parameters have been set since the degree was last set alone, before each choice of the
absorption.
-/
def Guarded (calls : List LweCall) : Prop :=
  ∀ before elt_nbr, before ++ [.setandgetAbsBitPerCiphertext elt_nbr] <+: calls →
    configured before = true

/-- All parameters have been set since then, at the end as well. -/
def Restored (calls : List LweCall) : Prop :=
  configured calls = true ∧ Guarded calls

section Setting

variable {lwe : LweObject}

/-- No key has been drawn yet. -/
structure LweObject.Unset (lwe : LweObject) : Prop where
  old_eq : lwe.oldNbModuli = 0
  nbModuli_eq : lwe.nbModuli = none
  init_eq : lwe.nflInstance.alreadyInit = 0
  instance_eq : lwe.nflInstance.nbModuli = 0

/-- The arrays of the instance and of the key are in use, and different from each other. -/
structure LweObject.Keyed (lwe : LweObject) (moduli key stride : ℕ) (keys : KeyPointers) :
    Prop where
  old_eq : lwe.oldNbModuli = lwe.nflInstance.nbModuli
  nbModuli_pos : 0 < lwe.nflInstance.nbModuli
  nbModuli_eq : lwe.nbModuli = some lwe.nflInstance.nbModuli
  init_eq : lwe.nflInstance.alreadyInit = lwe.nflInstance.nbModuli
  moduli_eq : lwe.nflInstance.moduli = some moduli
  moduli_used : lwe.heap.blocks moduli = some lwe.nflInstance.moduliWords
  keys_eq : lwe.keys = some keys
  rows_eq : keys.secretKey =
    (List.range lwe.nflInstance.nbModuli).map fun cm => (key, stride * cm)
  shoup_length : keys.secretKeyShoup.length = lwe.nflInstance.nbModuli
  distinct :
    (moduli :: keys.Abit_mod :: keys.Abit_mod_shoup :: key :: keys.secretKeyShoup).Nodup
  amplifier_used : ∃ words, lwe.heap.blocks keys.Abit_mod = some words ∧
    words.length = lwe.nflInstance.nbModuli
  quotient_used : ∃ words, lwe.heap.blocks keys.Abit_mod_shoup = some words ∧
    words.length = lwe.nflInstance.nbModuli
  key_used : (lwe.heap.blocks key).isSome
  shoup_used : ∀ address ∈ keys.secretKeyShoup, (lwe.heap.blocks address).isSome

/-- The pointer to the moduli points to memory that has been freed. -/
def LweObject.Dangling (lwe : LweObject) : Prop :=
  ∃ moduli, lwe.moduli = some moduli ∧ moduli < lwe.heap.next ∧
    lwe.heap.blocks moduli = none

@[simp]
theorem NFLInstance.length_moduliWords (nfl : NFLInstance) :
    nfl.moduliWords.length = nfl.nbModuli := List.length_ofFn

theorem NFLInstance.moduliWords_pos {nfl : NFLInstance} {cm p : ℕ}
    (here : nfl.moduliWords[cm]? = some p) : 0 < p := by
  rcases List.mem_ofFn.mp (List.mem_of_getElem? here) with ⟨index, rfl⟩
  exact Nat.lt_of_le_of_lt (Nat.zero_le _) (P64_gt _)

/-- The amplifiers are written, and nothing else. -/
theorem amplifierLoop {heap : Heap ℕ} {moduli : ℕ} {keys : KeyPointers} {words : List ℕ}
    {nbModuli : ℕ} (moduli_used : heap.blocks moduli = some words)
    (length_eq : words.length = nbModuli) (apart : moduli ≠ keys.Abit_mod)
    (apart_shoup : moduli ≠ keys.Abit_mod_shoup) (apart_both : keys.Abit_mod ≠ keys.Abit_mod_shoup)
    (amplifier_used : ∃ words, heap.blocks keys.Abit_mod = some words ∧ words.length = nbModuli)
    (quotient_used : ∃ words, heap.blocks keys.Abit_mod_shoup = some words ∧
      words.length = nbModuli) {count : ℕ} (count_le : count ≤ nbModuli) :
    ∃ after, (List.range count).foldlM (LweObject.amplifierStep moduli keys) (heap, 0) =
        some (after, 0) ∧ after.next = heap.next ∧
      (∃ words, after.blocks keys.Abit_mod = some words ∧ words.length = nbModuli) ∧
      (∃ words, after.blocks keys.Abit_mod_shoup = some words ∧ words.length = nbModuli) ∧
      ∀ address, address ≠ keys.Abit_mod → address ≠ keys.Abit_mod_shoup →
        after.blocks address = heap.blocks address := by
  induction count with
  | zero => exact ⟨heap, rfl, rfl, amplifier_used, quotient_used, fun _ _ _ => rfl⟩
  | succ count ih =>
      rcases ih (Nat.le_of_succ_le count_le) with
        ⟨middle, loop, next_eq, ⟨first, first_used, first_length⟩,
          ⟨second, second_used, second_length⟩, kept⟩
      have inside : count < words.length := by omega
      have reads : middle.read moduli count = some words[count] := by
        rw [Heap.read_of_block ((kept moduli apart apart_shoup).trans moduli_used),
          List.getElem?_eq_getElem inside]
      rcases Heap.write_spec first_used (by omega : count < first.length) 0 with
        ⟨written, writes, written_next, written_here, written_else⟩
      have second_kept := (written_else _ apart_both.symm).trans second_used
      rcases Heap.write_spec second_kept (by omega : count < second.length)
          (shoupQuotient 0 words[count]) with
        ⟨after, writes_shoup, after_next, after_here, after_else⟩
      refine ⟨after, ?_, by rw [after_next, written_next, next_eq],
        ⟨_, (after_else _ apart_both).trans written_here, by rw [List.length_set, first_length]⟩,
        ⟨_, after_here, by rw [List.length_set, second_length]⟩, ?_⟩
      · rw [foldlM_range_succ, loop, Option.bind_some, LweObject.amplifierStep]
        simp only [reads, Option.bind_some, Nat.zero_mod, writes, writes_shoup, Option.map_some]
      · intro address other other_shoup
        rw [after_else address other_shoup, written_else address other,
          kept address other other_shoup]

namespace LweObject

variable {moduli key stride : ℕ} {keys : KeyPointers}

/-- An object whose key belongs to its degree and to the moduli of its instance. -/
structure Ready (lwe : LweObject) (moduli key : ℕ) (keys : KeyPointers) : Prop
    extends lwe.Keyed moduli key lwe.polyDegree keys where
  degree_pos : 0 < lwe.polyDegree
  polyDegree_eq : lwe.polyDegree = lwe.nflInstance.polyDegree
  points : lwe.moduli = some moduli
  content : ∀ cm < lwe.nflInstance.nbModuli, ∀ i < lwe.polyDegree, ∃ shoup word p,
    keys.secretKeyShoup[cm]? = some shoup ∧ lwe.nflInstance.moduliWords[cm]? = some p ∧
    lwe.heap.read key (lwe.polyDegree * cm + i) = some word ∧ word < p ∧
    lwe.heap.read shoup i = some (word * 2 ^ 64 / p)

theorem Ready.consistent (ready : lwe.Ready moduli key keys) : lwe.Consistent where
  polyDegree_eq := ready.polyDegree_eq
  nbModuli_eq := ready.nbModuli_eq
  moduli_eq := ready.points.trans ready.moduli_eq.symm
  moduli_used := ⟨moduli, ready.points, ready.moduli_used⟩
  key_used := by
    refine ⟨keys, ready.keys_eq, ?_, ?_⟩
    · intro address address_mem
      rcases ready.amplifier_used with ⟨amplifier, amplifier_used, -⟩
      rcases ready.quotient_used with ⟨quotient, quotient_used, -⟩
      rw [List.mem_append, List.mem_cons, List.mem_cons] at address_mem
      rcases address_mem with (rfl | rfl | shoup) | row
      · rw [amplifier_used]
        rfl
      · rw [quotient_used]
        rfl
      · exact ready.shoup_used address shoup
      · rw [ready.rows_eq, List.map_map] at row
        rcases List.mem_map.mp row with ⟨cm, -, rfl⟩
        exact ready.key_used
    · intro cm cm_lt i i_lt
      rcases ready.content cm cm_lt i i_lt with
        ⟨shoup, word, p, shoup_eq, p_eq, reads, word_lt, reads_shoup⟩
      refine ⟨(key, lwe.polyDegree * cm), shoup, word, p, ?_, shoup_eq, p_eq, reads, word_lt,
        reads_shoup⟩
      rw [ready.rows_eq, List.getElem?_map, List.getElem?_range cm_lt, Option.map_some]

theorem Keyed.apart (keyed : lwe.Keyed moduli key stride keys) :
    keys.Abit_mod ≠ keys.Abit_mod_shoup ∧
      ∀ address ∈ moduli :: key :: keys.secretKeyShoup,
        address ≠ keys.Abit_mod ∧ address ≠ keys.Abit_mod_shoup := by
  have distinct := keyed.distinct
  simp only [List.nodup_cons, List.mem_cons, not_or] at distinct
  rcases distinct with ⟨⟨moduli_amplifier, moduli_quotient, -⟩,
    ⟨both, amplifier_key, amplifier_shoup⟩, ⟨quotient_key, quotient_shoup⟩, -⟩
  refine ⟨both, ?_⟩
  intro address address_mem
  rw [List.mem_cons, List.mem_cons] at address_mem
  rcases address_mem with rfl | rfl | shoup
  · exact ⟨moduli_amplifier, moduli_quotient⟩
  · exact ⟨Ne.symm amplifier_key, Ne.symm quotient_key⟩
  · exact ⟨by rintro rfl; exact amplifier_shoup shoup, by rintro rfl; exact quotient_shoup shoup⟩

/-- The amplifiers are recomputed, and all other arrays are left as they are. -/
theorem Keyed.recompute (keyed : lwe.Keyed moduli key stride keys)
    (points : lwe.moduli = some moduli) (degree_pos : 0 < lwe.polyDegree) :
    ∃ heap, lwe.recomputeNoiseAmplifiers = some { lwe with heap } ∧
      LweObject.Keyed { lwe with heap } moduli key stride keys ∧
      ∀ address ∈ moduli :: key :: keys.secretKeyShoup,
        heap.blocks address = lwe.heap.blocks address := by
  rcases keyed.apart with ⟨apart_both, apart⟩
  rcases amplifierLoop keyed.moduli_used (NFLInstance.length_moduliWords _)
    (apart moduli List.mem_cons_self).1 (apart moduli List.mem_cons_self).2 apart_both
    keyed.amplifier_used keyed.quotient_used le_rfl with
    ⟨heap, loop, next_eq, amplifier_used, quotient_used, kept⟩
  have same : ∀ address ∈ moduli :: key :: keys.secretKeyShoup,
      heap.blocks address = lwe.heap.blocks address :=
    fun address address_mem => kept address (apart address address_mem).1
      (apart address address_mem).2
  refine ⟨heap, ?_, ?_, same⟩
  · rw [recomputeNoiseAmplifiers, if_neg degree_pos.ne', keyed.nbModuli_eq, Option.bind_some, points,
      Option.bind_some, keyed.keys_eq, Option.bind_some, loop, Option.map_some]
  · exact
      { keyed with
        moduli_used := (same moduli (by simp)).trans keyed.moduli_used
        amplifier_used := amplifier_used
        quotient_used := quotient_used
        key_used := by
          rw [show _ = _ from same key (by simp)]
          exact keyed.key_used
        shoup_used := by
          intro address address_mem
          rw [show _ = _ from same address (by simp [address_mem])]
          exact keyed.shoup_used address address_mem }

theorem Ready.recompute (ready : lwe.Ready moduli key keys) :
    ∃ after, lwe.recomputeNoiseAmplifiers = some after ∧ after.Ready moduli key keys := by
  rcases ready.toKeyed.recompute ready.points ready.degree_pos with ⟨heap, steps, keyed, same⟩
  refine ⟨_, steps, { keyed, ready with content := ?_ }⟩
  intro cm cm_lt i i_lt
  rcases ready.content cm cm_lt i i_lt with
    ⟨shoup, word, p, shoup_eq, p_eq, reads, word_lt, reads_shoup⟩
  have shoup_mem := List.mem_of_getElem? shoup_eq
  refine ⟨shoup, word, p, shoup_eq, p_eq, ?_, word_lt, ?_⟩
  · rw [Heap.read, same key (by simp)]
    exact reads
  · rw [Heap.read, same shoup (by simp [shoup_mem])]
    exact reads_shoup

theorem Ready.setandgetAbsBitPerCiphertext (ready : lwe.Ready moduli key keys) (elt_nbr : ℕ) :
    ∃ after, lwe.setandgetAbsBitPerCiphertext elt_nbr = some after ∧
      after.Ready moduli key keys := by
  rw [LweObject.setandgetAbsBitPerCiphertext, ready.nbModuli_eq, Option.bind_some]
  exact Ready.recompute { ready with nbModuli_eq := rfl }

/-- Freed moduli are read if the absorption is chosen. -/
theorem Keyed.recompute_eq_none (keyed : lwe.Keyed moduli key stride keys)
    (dangling : lwe.Dangling) : lwe.recomputeNoiseAmplifiers = none := by
  rcases dangling with ⟨freed, points, -, absent⟩
  rcases Nat.exists_eq_succ_of_ne_zero keyed.nbModuli_pos.ne' with ⟨rest, count_eq⟩
  have first : LweObject.amplifierStep freed keys (lwe.heap, 0) 0 = none := by
    rw [amplifierStep, Heap.read_eq_none absent, Option.bind_none]
  rw [recomputeNoiseAmplifiers]
  split
  · rfl
  · rw [keyed.nbModuli_eq, Option.bind_some, points, Option.bind_some, keyed.keys_eq,
      Option.bind_some, count_eq, List.range_succ_eq_map, List.foldlM_cons, first]
    rfl

theorem Keyed.setandgetAbsBitPerCiphertext_eq_none (keyed : lwe.Keyed moduli key stride keys)
    (dangling : lwe.Dangling) (elt_nbr : ℕ) :
    lwe.setandgetAbsBitPerCiphertext elt_nbr = none := by
  rw [LweObject.setandgetAbsBitPerCiphertext, keyed.nbModuli_eq, Option.bind_some]
  refine @Keyed.recompute_eq_none _ moduli key stride keys ?_ dangling
  exact { keyed with nbModuli_eq := rfl }

/-- The words of a key are below the moduli. -/
theorem getElem?_randomWords {nfl : NFLInstance} (rnd : ℕ → ℕ) {cm i p : ℕ}
    (i_lt : i < nfl.polyDegree) (p_eq : nfl.moduliWords[cm]? = some p) :
    ∃ word < p, (nfl.randomWords rnd)[nfl.polyDegree * cm + i]? = some word := by
  have cm_lt : cm < nfl.nbModuli := by
    rw [← nfl.length_moduliWords]
    exact (List.getElem?_eq_some_iff.mp p_eq).1
  have inside : nfl.polyDegree * cm + i < nfl.polyDegree * nfl.nbModuli :=
    calc nfl.polyDegree * cm + i < nfl.polyDegree * (cm + 1) := by
          rw [Nat.mul_succ]
          omega
      _ ≤ nfl.polyDegree * nfl.nbModuli := Nat.mul_le_mul_left _ cm_lt
  have row_eq : (nfl.polyDegree * cm + i) / nfl.polyDegree = cm := by
    rw [Nat.mul_add_div (by omega), Nat.div_eq_of_lt i_lt, Nat.add_zero]
  refine ⟨boundedWord p (rnd (nfl.polyDegree * cm + i)),
    boundedWord_lt (NFLInstance.moduliWords_pos p_eq) _, ?_⟩
  rw [NFLInstance.randomWords, List.getElem?_map, List.getElem?_range inside, Option.map_some,
    row_eq, List.getD_eq_getElem?_getD, p_eq, Option.getD_some]

/-- The quotients of the words of a row. -/
def quotients (words : ℕ → ℕ) (p polyDegree : ℕ) : List ℕ :=
  (List.range polyDegree).map fun i => shoupQuotient (words i) p

/-- The rows of quotients are placed one behind the other. -/
theorem keyRowsLoop {heap : Heap ℕ} {moduli key polyDegree nbModuli : ℕ} {start : KeyPointers}
    {words : ℕ → ℕ → ℕ} {p : ℕ → ℕ}
    (reads : ∀ cm < nbModuli, ∀ i < polyDegree,
      heap.read key (polyDegree * cm + i) = some (words cm i))
    (reads_moduli : ∀ cm < nbModuli, heap.read moduli cm = some (p cm))
    (key_lt : key < heap.next) (moduli_lt : moduli < heap.next) {count : ℕ}
    (count_le : count ≤ nbModuli) :
    ∃ after, (List.range count).foldlM (keyRows moduli key polyDegree)
        (heap, { start with secretKey := [], secretKeyShoup := [] }) =
          some (after, { start with
            secretKey := (List.range count).map fun cm => (key, polyDegree * cm)
            secretKeyShoup := (List.range count).map fun cm => heap.next + cm }) ∧
      after.next = heap.next + count ∧
      (∀ address < heap.next, after.blocks address = heap.blocks address) ∧
      ∀ cm < count,
        after.blocks (heap.next + cm) = some (quotients (words cm) (p cm) polyDegree) := by
  induction count with
  | zero => exact ⟨heap, rfl, rfl, fun _ _ => rfl, fun cm cm_lt => absurd cm_lt (Nat.not_lt_zero cm)⟩
  | succ count ih =>
      rcases ih (Nat.le_of_succ_le count_le) with ⟨middle, loop, next_eq, kept, rows⟩
      have row : shoupRow middle moduli key count polyDegree =
          some (quotients (words count) (p count) polyDegree) := by
        apply mapM_eq_some
        intro i i_mem
        rw [Heap.read, kept key key_lt]
        have word_eq := reads count count_le i (List.mem_range.mp i_mem)
        rw [Heap.read] at word_eq
        rw [word_eq, Option.bind_some, Heap.read, kept moduli moduli_lt]
        have p_eq := reads_moduli count count_le
        rw [Heap.read] at p_eq
        rw [p_eq, Option.map_some]
      refine ⟨middle.alloc (quotients (words count) (p count) polyDegree), ?_, ?_, ?_, ?_⟩
      · rw [foldlM_range_succ, loop, Option.bind_some, keyRows, row, Option.map_some]
        simp only [List.range_succ, List.map_append, List.map_singleton, next_eq]
      · rw [Heap.next_alloc, next_eq, Nat.add_assoc]
      · intro address address_lt
        rw [Heap.blocks_alloc_of_ne _ (by omega), kept address address_lt]
      · intro cm cm_lt
        rcases Nat.lt_succ_iff_lt_or_eq.mp cm_lt with earlier | rfl
        · rw [Heap.blocks_alloc_of_ne _ (by omega), rows cm earlier]
        · rw [← next_eq, Heap.blocks_alloc_next]

/-- An object that points to the moduli of its instance, before the arrays of a key are there. -/
structure Prepared (lwe : LweObject) (moduli : ℕ) : Prop where
  degree_pos : 0 < lwe.polyDegree
  polyDegree_eq : lwe.polyDegree = lwe.nflInstance.polyDegree
  old_eq : lwe.oldNbModuli = lwe.nflInstance.nbModuli
  nbModuli_pos : 0 < lwe.nflInstance.nbModuli
  nbModuli_eq : lwe.nbModuli = some lwe.nflInstance.nbModuli
  init_eq : lwe.nflInstance.alreadyInit = lwe.nflInstance.nbModuli
  moduli_eq : lwe.nflInstance.moduli = some moduli
  points : lwe.moduli = some moduli
  moduli_used : lwe.heap.blocks moduli = some lwe.nflInstance.moduliWords

/-- The arrays of a key are allocated one after the other. -/
theorem nodup_arrays {next : ℕ} (moduli_lt : moduli < next) (nbModuli : ℕ) :
    (moduli :: next :: (next + 1) :: (next + 2) ::
      (List.range nbModuli).map fun cm => next + 3 + cm).Nodup := by
  have rows_nodup : ((List.range nbModuli).map fun cm => next + 3 + cm).Nodup :=
    List.nodup_range.map (add_right_injective (next + 3))
  simp only [List.nodup_cons, List.mem_cons, List.mem_map, not_or, not_exists, not_and]
  refine ⟨⟨by omega, by omega, by omega, ?_⟩, ⟨by omega, by omega, ?_⟩, ⟨by omega, ?_⟩, ?_,
    rows_nodup⟩ <;>
  · intro cm _
    omega

theorem Prepared.allocateKeys (prepared : lwe.Prepared moduli) (rnd : ℕ → ℕ) :
    ∃ after key keys, lwe.allocateKeys rnd = some after ∧ after.Ready moduli key keys := by
  have moduli_lt := Heap.lt_next prepared.moduli_used
  generalize zeros_eq : List.replicate lwe.nflInstance.nbModuli 0 = zeros
  have zeros_length : zeros.length = lwe.nflInstance.nbModuli := by
    rw [← zeros_eq, List.length_replicate]
  generalize heap_eq : ((lwe.heap.alloc zeros).alloc zeros).alloc
    (lwe.nflInstance.randomWords rnd) = heap
  have next_eq : heap.next = lwe.heap.next + 3 := by
    rw [← heap_eq, Heap.next_alloc, Heap.next_alloc, Heap.next_alloc]
  have moduli_used : heap.blocks moduli = some lwe.nflInstance.moduliWords := by
    rw [← heap_eq]
    exact Heap.blocks_alloc (Heap.blocks_alloc (Heap.blocks_alloc prepared.moduli_used))
  have amplifier_used : heap.blocks lwe.heap.next = some zeros := by
    rw [← heap_eq]
    exact Heap.blocks_alloc (Heap.blocks_alloc (Heap.blocks_alloc_next ..))
  have quotient_used : heap.blocks (lwe.heap.next + 1) = some zeros := by
    rw [← heap_eq]
    exact Heap.blocks_alloc (Heap.blocks_alloc_next (lwe.heap.alloc zeros) zeros)
  have key_used : heap.blocks (lwe.heap.next + 2) = some (lwe.nflInstance.randomWords rnd) := by
    rw [← heap_eq]
    exact Heap.blocks_alloc_next ((lwe.heap.alloc zeros).alloc zeros) _
  have modulus : ∀ cm < lwe.nflInstance.nbModuli, lwe.nflInstance.moduliWords[cm]? =
      some (lwe.nflInstance.moduliWords.getD cm 0) := by
    intro cm cm_lt
    rw [← lwe.nflInstance.length_moduliWords] at cm_lt
    rw [List.getD_eq_getElem _ _ cm_lt, List.getElem?_eq_getElem cm_lt]
  have drawn : ∀ cm < lwe.nflInstance.nbModuli, ∀ i < lwe.polyDegree,
      (lwe.nflInstance.randomWords rnd)[lwe.polyDegree * cm + i]? =
        some ((lwe.nflInstance.randomWords rnd).getD (lwe.polyDegree * cm + i) 0) ∧
      (lwe.nflInstance.randomWords rnd).getD (lwe.polyDegree * cm + i) 0 <
        lwe.nflInstance.moduliWords.getD cm 0 := by
    intro cm cm_lt i i_lt
    rw [prepared.polyDegree_eq] at i_lt ⊢
    rcases getElem?_randomWords rnd i_lt (modulus cm cm_lt) with ⟨word, word_lt, word_eq⟩
    rw [List.getD_eq_getElem?_getD, word_eq, Option.getD_some]
    exact ⟨rfl, word_lt⟩
  rcases @keyRowsLoop heap moduli (lwe.heap.next + 2) lwe.polyDegree lwe.nflInstance.nbModuli
    ⟨lwe.heap.next, lwe.heap.next + 1, [], []⟩
    (fun cm i => (lwe.nflInstance.randomWords rnd).getD (lwe.polyDegree * cm + i) 0)
    (fun cm => lwe.nflInstance.moduliWords.getD cm 0)
    (fun cm cm_lt i i_lt => (Heap.read_of_block key_used).trans (drawn cm cm_lt i i_lt).1)
    (fun cm cm_lt => (Heap.read_of_block moduli_used).trans (modulus cm cm_lt))
    (by omega) (by omega) _ le_rfl with ⟨after, loop, -, kept, rows⟩
  let pointers : KeyPointers :=
    { Abit_mod := lwe.heap.next
      Abit_mod_shoup := lwe.heap.next + 1
      secretKey := (List.range lwe.nflInstance.nbModuli).map fun cm =>
        (lwe.heap.next + 2, lwe.polyDegree * cm)
      secretKeyShoup := (List.range lwe.nflInstance.nbModuli).map fun cm => heap.next + cm }
  refine ⟨{ lwe with heap := after, keys := some pointers }, lwe.heap.next + 2, pointers, ?_, ?_⟩
  · rw [LweObject.allocateKeys, prepared.nbModuli_eq, Option.bind_some, prepared.points, Option.bind_some]
    simp only [zeros_eq, heap_eq]
    exact congrArg (Option.map _) loop
  · exact
      { degree_pos := prepared.degree_pos
        polyDegree_eq := prepared.polyDegree_eq
        old_eq := prepared.old_eq
        nbModuli_pos := prepared.nbModuli_pos
        nbModuli_eq := prepared.nbModuli_eq
        init_eq := prepared.init_eq
        moduli_eq := prepared.moduli_eq
        points := prepared.points
        keys_eq := rfl
        rows_eq := rfl
        shoup_length := by rw [List.length_map, List.length_range]
        moduli_used := (kept moduli (by omega)).trans moduli_used
        amplifier_used := ⟨zeros, (kept lwe.heap.next (by omega)).trans amplifier_used, zeros_length⟩
        quotient_used :=
          ⟨zeros, (kept (lwe.heap.next + 1) (by omega)).trans quotient_used, zeros_length⟩
        key_used := by
          rw [show _ = _ from kept (lwe.heap.next + 2) (by omega), key_used]
          rfl
        shoup_used := by
          intro address address_mem
          rcases List.mem_map.mp address_mem with ⟨cm, cm_mem, rfl⟩
          rw [show _ = _ from rows cm (List.mem_range.mp cm_mem)]
          rfl
        distinct := by
          show (moduli :: lwe.heap.next :: (lwe.heap.next + 1) :: (lwe.heap.next + 2) ::
            (List.range lwe.nflInstance.nbModuli).map fun cm => heap.next + cm).Nodup
          rw [next_eq]
          exact nodup_arrays moduli_lt lwe.nflInstance.nbModuli
        content := by
          intro cm cm_lt i i_lt
          refine ⟨heap.next + cm, _, _, ?_, modulus cm cm_lt, ?_, (drawn cm cm_lt i i_lt).2, ?_⟩
          · rw [List.getElem?_map, List.getElem?_range cm_lt, Option.map_some]
          · rw [Heap.read, show _ = _ from kept (lwe.heap.next + 2) (by omega), ← Heap.read,
              Heap.read_of_block key_used]
            exact (drawn cm cm_lt i i_lt).1
          · rw [Heap.read_of_block (rows cm cm_lt), quotients, List.getElem?_map,
              List.getElem?_range i_lt, Option.map_some,
              shoupQuotient_of_lt (drawn cm cm_lt i i_lt).2] }

/-- An object that is prepared ends up with a key of its own. -/
theorem Prepared.finish (prepared : lwe.Prepared moduli) (rnd : ℕ → ℕ) :
    ∃ after moduli key keys, (lwe.allocateKeys rnd).bind recomputeNoiseAmplifiers = some after ∧
      after.Ready moduli key keys := by
  rcases prepared.allocateKeys rnd with ⟨allocated, key, keys, allocates, ready⟩
  rcases ready.recompute with ⟨after, steps, ready⟩
  exact ⟨after, moduli, key, keys, by rw [allocates, Option.bind_some, steps], ready⟩

end LweObject

namespace NFLInstance

variable {heap : Heap ℕ} {nfl : NFLInstance} {moduli : ℕ} {words : List ℕ}

/-- The heap and the instance after its moduli have been allocated. -/
def allocated (heap : Heap ℕ) (nfl : NFLInstance) : Heap ℕ × NFLInstance :=
  (heap.alloc nfl.moduliWords, { nfl with alreadyInit := nfl.nbModuli, moduli := some heap.next })

theorem configureNTT_first (init : nfl.alreadyInit = 0) :
    configureNTT heap nfl = some (allocated heap nfl) := by
  rw [configureNTT, freeNTTMemory, if_pos init, Option.map_some]
  rfl

/-- An instance that was configured frees its moduli first. -/
theorem configureNTT_again (init : nfl.alreadyInit ≠ 0) (moduli_eq : nfl.moduli = some moduli)
    (used : heap.blocks moduli = some words) :
    ∃ freed, configureNTT heap nfl = some (allocated freed nfl) ∧ freed.next = heap.next ∧
      freed.blocks moduli = none ∧
      ∀ other ≠ moduli, freed.blocks other = heap.blocks other := by
  rcases Heap.free_spec used with ⟨freed, frees, next_eq, absent, others⟩
  refine ⟨freed, ?_, next_eq, absent, others⟩
  rw [configureNTT, freeNTTMemory, if_neg init, moduli_eq, Option.bind_some, frees,
    Option.map_some]
  rfl

theorem setNewParameters_eq (polyDegree nbModuli : ℕ) (inRange : nbModuli ≤ kMaxNbModuli) :
    nfl.setNewParameters heap polyDegree (kModulusBitsize * nbModuli) =
      configureNTT heap { nfl with polyDegree, nbModuli, nbModuli_le := inRange } := by
  have quotient_eq : kModulusBitsize * nbModuli / kModulusBitsize = nbModuli :=
    Nat.mul_div_cancel_left nbModuli (by decide)
  rw [setNewParameters, if_neg (by rw [Nat.mul_mod_right, not_not]),
    dif_pos (by rw [quotient_eq]; exact inRange)]
  simp only [quotient_eq]

end NFLInstance

namespace LweObject

variable {moduli key stride : ℕ} {keys : KeyPointers}

theorem Unset.setpolyDegree (unset : lwe.Unset) (polyDegree : ℕ) :
    ∃ after, lwe.setpolyDegree polyDegree = some after ∧ after.Unset := by
  rw [LweObject.setpolyDegree, NFLInstance.setpolyDegree,
    @NFLInstance.configureNTT_first _ { lwe.nflInstance with polyDegree } unset.init_eq]
  exact ⟨_, rfl, unset.old_eq, unset.nbModuli_eq, unset.instance_eq, unset.instance_eq⟩

theorem Unset.setandgetAbsBitPerCiphertext_eq_none (unset : lwe.Unset) (elt_nbr : ℕ) :
    lwe.setandgetAbsBitPerCiphertext elt_nbr = none := by
  rw [LweObject.setandgetAbsBitPerCiphertext, unset.nbModuli_eq, Option.bind_none]

theorem Unset.setNewParameters (unset : lwe.Unset) {securityBits polyDegree nbModuli : ℕ}
    {absPCBitsize : ℤ} {rnd : ℕ → ℕ} (degree_pos : 0 < polyDegree) (nbModuli_pos : 0 < nbModuli)
    (inRange : nbModuli ≤ kMaxNbModuli) :
    ∃ after moduli key keys, lwe.setNewParameters securityBits polyDegree
        (kModulusBitsize * nbModuli) absPCBitsize rnd = some after ∧
      after.Ready moduli key keys := by
  rw [LweObject.setNewParameters, NFLInstance.setNewParameters_eq polyDegree nbModuli inRange,
    @NFLInstance.configureNTT_first _
      { lwe.nflInstance with polyDegree, nbModuli, nbModuli_le := inRange } unset.init_eq,
    Option.bind_some]
  simp only [clearSecretKeys, unset.old_eq, if_true, Option.bind_some]
  apply Prepared.finish
  exact
    { degree_pos
      polyDegree_eq := rfl
      old_eq := rfl
      nbModuli_pos
      nbModuli_eq := rfl
      init_eq := rfl
      moduli_eq := rfl
      points := rfl
      moduli_used := Heap.blocks_alloc_next .. }

/-- The blocks of a key differ from the moduli, and lie below the next address. -/
theorem Keyed.arrays (keyed : lwe.Keyed moduli key stride keys) :
    ∀ address ∈ keys.Abit_mod :: keys.Abit_mod_shoup :: key :: keys.secretKeyShoup,
      (lwe.heap.blocks address).isSome ∧ address ≠ moduli ∧ address < lwe.heap.next := by
  intro address address_mem
  have used : (lwe.heap.blocks address).isSome := by
    rcases keyed.amplifier_used with ⟨amplifier, amplifier_used, -⟩
    rcases keyed.quotient_used with ⟨quotient, quotient_used, -⟩
    simp only [List.mem_cons] at address_mem
    rcases address_mem with rfl | rfl | rfl | shoup
    · rw [amplifier_used]
      rfl
    · rw [quotient_used]
      rfl
    · exact keyed.key_used
    · exact keyed.shoup_used address shoup
  rcases Option.isSome_iff_exists.mp used with ⟨words, here⟩
  refine ⟨used, ?_, Heap.lt_next here⟩
  rintro rfl
  exact (List.nodup_cons.mp keyed.distinct).1 address_mem

/-- The instance is configured anew, and the old moduli are no longer in use. -/
theorem Keyed.setpolyDegree (keyed : lwe.Keyed moduli key stride keys)
    (points : lwe.moduli = some moduli ∨ lwe.Dangling) (polyDegree : ℕ) :
    ∃ after moduli, lwe.setpolyDegree polyDegree = some after ∧
      after.Keyed moduli key stride keys ∧ after.Dangling := by
  have init : lwe.nflInstance.alreadyInit ≠ 0 := by
    rw [keyed.init_eq]
    exact keyed.nbModuli_pos.ne'
  rcases @NFLInstance.configureNTT_again _ { lwe.nflInstance with polyDegree } _ _ init
    keyed.moduli_eq keyed.moduli_used with ⟨freed, configures, next_eq, absent, others⟩
  generalize heap_eq : freed.alloc lwe.nflInstance.moduliWords = heap
  have heap_next : heap.next = lwe.heap.next + 1 := by
    rw [← heap_eq, Heap.next_alloc, next_eq]
  have kept : ∀ address ∈ keys.Abit_mod :: keys.Abit_mod_shoup :: key :: keys.secretKeyShoup,
      heap.blocks address = lwe.heap.blocks address := by
    intro address address_mem
    rcases keyed.arrays address address_mem with ⟨-, apart, below⟩
    rw [← heap_eq, Heap.blocks_alloc_of_ne _ (by omega), others address apart]
  have shape : lwe.setpolyDegree polyDegree = some
      { lwe with
        heap
        nflInstance :=
          { lwe.nflInstance with
            polyDegree
            alreadyInit := lwe.nflInstance.nbModuli
            moduli := some lwe.heap.next }
        polyDegree } := by
    rw [LweObject.setpolyDegree, NFLInstance.setpolyDegree, configures, Option.map_some,
      ← heap_eq, ← next_eq]
    rfl
  refine ⟨_, lwe.heap.next, shape, ?_, ?_⟩
  · exact
      { keyed with
        init_eq := rfl
        moduli_eq := rfl
        moduli_used := by
          rw [← next_eq, ← heap_eq]
          exact Heap.blocks_alloc_next ..
        distinct := by
          refine List.nodup_cons.mpr ⟨?_, (List.nodup_cons.mp keyed.distinct).2⟩
          intro fresh_mem
          have below := (keyed.arrays _ fresh_mem).2.2
          omega
        amplifier_used := by
          rw [show _ = _ from kept keys.Abit_mod (by simp)]
          exact keyed.amplifier_used
        quotient_used := by
          rw [show _ = _ from kept keys.Abit_mod_shoup (by simp)]
          exact keyed.quotient_used
        key_used := by
          rw [show _ = _ from kept key (by simp)]
          exact keyed.key_used
        shoup_used := by
          intro address address_mem
          rw [show _ = _ from kept address (by simp [address_mem])]
          exact keyed.shoup_used address address_mem }
  · rcases points with points | ⟨old, points, below, gone⟩
    · have below := Heap.lt_next keyed.moduli_used
      refine ⟨moduli, points, ?_, ?_⟩
      · rw [show _ = _ from heap_next]
        omega
      · show heap.blocks moduli = none
        rw [← heap_eq, Heap.blocks_alloc_of_ne _ (by omega), absent]
    · refine ⟨old, points, ?_, ?_⟩
      · rw [show _ = _ from heap_next]
        omega
      · have apart : old ≠ moduli := by
          rintro rfl
          rw [keyed.moduli_used] at gone
          contradiction
        show heap.blocks old = none
        rw [← heap_eq, Heap.blocks_alloc_of_ne _ (by omega), others old apart, gone]

theorem Keyed.freed_eq (keyed : lwe.Keyed moduli key stride keys) :
    KeyPointers.freed keys lwe.oldNbModuli =
      keys.Abit_mod :: keys.Abit_mod_shoup :: key :: keys.secretKeyShoup := by
  rcases Nat.exists_eq_succ_of_ne_zero keyed.nbModuli_pos.ne' with ⟨rest, count_eq⟩
  rw [KeyPointers.freed, keyed.old_eq, ← keyed.shoup_length, List.take_length, keyed.rows_eq,
    count_eq, List.range_succ_eq_map]
  rfl

/-- The old key and the old moduli are freed, and new ones are drawn. -/
theorem Keyed.setNewParameters (keyed : lwe.Keyed moduli key stride keys)
    {securityBits polyDegree nbModuli : ℕ} {absPCBitsize : ℤ} {rnd : ℕ → ℕ}
    (degree_pos : 0 < polyDegree) (nbModuli_pos : 0 < nbModuli)
    (inRange : nbModuli ≤ kMaxNbModuli) :
    ∃ after moduli key keys, lwe.setNewParameters securityBits polyDegree
        (kModulusBitsize * nbModuli) absPCBitsize rnd = some after ∧
      after.Ready moduli key keys := by
  have init : lwe.nflInstance.alreadyInit ≠ 0 := by
    rw [keyed.init_eq]
    exact keyed.nbModuli_pos.ne'
  rcases @NFLInstance.configureNTT_again _
    { lwe.nflInstance with polyDegree, nbModuli, nbModuli_le := inRange } _ _ init
    keyed.moduli_eq keyed.moduli_used with ⟨freed, configures, next_eq, -, others⟩
  generalize words_eq : NFLInstance.moduliWords
    { lwe.nflInstance with polyDegree, nbModuli, nbModuli_le := inRange } = words at configures
  have used : ∀ address ∈ keys.Abit_mod :: keys.Abit_mod_shoup :: key :: keys.secretKeyShoup,
      ((freed.alloc words).blocks address).isSome := by
    intro address address_mem
    rcases keyed.arrays address address_mem with ⟨used, apart, below⟩
    rw [Heap.blocks_alloc_of_ne words (by omega), others address apart]
    exact used
  rcases Heap.freeAll_spec (List.nodup_cons.mp keyed.distinct).2 used with
    ⟨cleared, clears, cleared_next, kept⟩
  rw [← keyed.freed_eq] at clears
  have old_ne : lwe.oldNbModuli ≠ 0 := by
    rw [keyed.old_eq]
    exact keyed.nbModuli_pos.ne'
  have fresh_notMem :
      freed.next ∉ keys.Abit_mod :: keys.Abit_mod_shoup :: key :: keys.secretKeyShoup := by
    intro fresh_mem
    have below := (keyed.arrays _ fresh_mem).2.2
    omega
  rw [LweObject.setNewParameters, NFLInstance.setNewParameters_eq polyDegree nbModuli inRange,
    configures, Option.bind_some]
  simp only [clearSecretKeys, NFLInstance.allocated, old_ne, if_false, keyed.keys_eq,
    Option.bind_some, words_eq, clears, Option.map_some]
  apply Prepared.finish
  exact
    { degree_pos
      polyDegree_eq := rfl
      old_eq := rfl
      nbModuli_pos
      nbModuli_eq := rfl
      init_eq := rfl
      moduli_eq := rfl
      points := rfl
      moduli_used := by
        rw [show _ = _ from kept freed.next fresh_notMem, Heap.blocks_alloc_next]
        exact congrArg some words_eq.symm }

end LweObject

/-! ## Sequences of calls -/

/-- What an object looks like after some calls, by whether they leave it configured. -/
inductive Standing : Bool → LweObject → Prop
  | ready {reached : LweObject} {moduli key : ℕ} {keys : KeyPointers}
      (ready : reached.Ready moduli key keys) : Standing true reached
  | unset {reached : LweObject} (unset : reached.Unset) : Standing false reached
  | dangling {reached : LweObject} {moduli key stride : ℕ} {keys : KeyPointers}
      (keyed : reached.Keyed moduli key stride keys) (dangling : reached.Dangling) :
      Standing false reached

namespace Standing

variable {flag : Bool}

theorem consistent_iff (standing : Standing flag lwe) : lwe.Consistent ↔ flag = true := by
  cases standing with
  | ready ready => exact iff_of_true ready.consistent rfl
  | unset unset =>
      refine iff_of_false ?_ Bool.false_ne_true
      intro consistent
      have nbModuli_eq := consistent.nbModuli_eq
      rw [unset.nbModuli_eq] at nbModuli_eq
      contradiction
  | dangling keyed dangling =>
      refine iff_of_false ?_ Bool.false_ne_true
      intro consistent
      rcases dangling with ⟨old, points, -, gone⟩
      rcases consistent.moduli_used with ⟨moduli, moduli_eq, used⟩
      rw [points, Option.some.injEq] at moduli_eq
      rw [← moduli_eq, gone] at used
      contradiction

theorem setNewParameters (standing : Standing flag lwe) (securityBits : ℕ)
    (polyDegree : Set.Icc 512 8192) (nbModuli : Set.Icc 1 kMaxNbModuli) (absPCBitsize : ℤ)
    (rnd : ℕ → ℕ) :
    ∃ after, LweCall.run lwe
        (.setNewParameters securityBits polyDegree nbModuli absPCBitsize rnd) = some after ∧
      Standing true after := by
  rcases polyDegree with ⟨polyDegree, degree_ge, degree_le⟩
  rcases nbModuli with ⟨nbModuli, nbModuli_pos, inRange⟩
  have degree_pos : 0 < polyDegree := by omega
  have drawn : ∃ after moduli key keys, lwe.setNewParameters securityBits polyDegree
      (kModulusBitsize * nbModuli) absPCBitsize rnd = some after ∧
      after.Ready moduli key keys := by
    cases standing with
    | ready ready => exact ready.toKeyed.setNewParameters degree_pos nbModuli_pos inRange
    | unset unset => exact unset.setNewParameters degree_pos nbModuli_pos inRange
    | dangling keyed => exact keyed.setNewParameters degree_pos nbModuli_pos inRange
  rcases drawn with ⟨after, moduli, key, keys, steps, ready⟩
  exact ⟨after, steps, .ready ready⟩

theorem setpolyDegree (standing : Standing flag lwe) (polyDegree : Set.Icc 512 8192) :
    ∃ after, LweCall.run lwe (.setpolyDegree polyDegree) = some after ∧
      Standing false after := by
  cases standing with
  | ready ready =>
      rcases ready.toKeyed.setpolyDegree (.inl ready.points) polyDegree with
        ⟨after, moduli, steps, keyed, dangling⟩
      exact ⟨after, steps, .dangling keyed dangling⟩
  | unset unset =>
      rcases unset.setpolyDegree polyDegree with ⟨after, steps, unset⟩
      exact ⟨after, steps, .unset unset⟩
  | dangling keyed dangling =>
      rcases keyed.setpolyDegree (.inr dangling) polyDegree with
        ⟨after, moduli, steps, keyed, dangling⟩
      exact ⟨after, steps, .dangling keyed dangling⟩

theorem setandgetAbsBitPerCiphertext (standing : Standing true lwe) (elt_nbr : ℕ) :
    ∃ after, LweCall.run lwe (.setandgetAbsBitPerCiphertext elt_nbr) = some after ∧
      Standing true after := by
  cases standing with
  | ready ready =>
      rcases ready.setandgetAbsBitPerCiphertext elt_nbr with ⟨after, steps, ready⟩
      exact ⟨after, steps, .ready ready⟩

theorem setandgetAbsBitPerCiphertext_eq_none (standing : Standing false lwe) (elt_nbr : ℕ) :
    LweCall.run lwe (.setandgetAbsBitPerCiphertext elt_nbr) = none := by
  cases standing with
  | unset unset => exact unset.setandgetAbsBitPerCiphertext_eq_none elt_nbr
  | dangling keyed dangling => exact keyed.setandgetAbsBitPerCiphertext_eq_none dangling elt_nbr

end Standing

end Setting

theorem configured_append_singleton (calls : List LweCall) (call : LweCall) :
    configured (calls ++ [call]) =
      match call with
      | .setNewParameters .. => true
      | .setpolyDegree _ => false
      | .setandgetAbsBitPerCiphertext _ => configured calls := by
  rw [configured, List.foldl_append]
  rfl

theorem guarded_append_singleton {calls : List LweCall} {call : LweCall} :
    Guarded (calls ++ [call]) ↔ Guarded calls ∧
      ∀ elt_nbr, call = .setandgetAbsBitPerCiphertext elt_nbr → configured calls = true := by
  constructor
  · intro guarded
    refine ⟨?_, ?_⟩
    · intro before elt_nbr initial
      exact guarded before elt_nbr (initial.trans (List.prefix_append calls [call]))
    · rintro elt_nbr rfl
      exact guarded calls elt_nbr (List.prefix_refl _)
  · rintro ⟨guarded, last⟩ before elt_nbr initial
    rcases List.prefix_concat_iff.mp initial with whole | initial
    · rcases List.append_inj' whole rfl with ⟨rfl, call_eq⟩
      exact last elt_nbr (List.singleton_injective call_eq.symm)
    · exact guarded before elt_nbr initial

theorem LweObject.after_append_singleton (calls : List LweCall) (call : LweCall) :
    LweObject.after (calls ++ [call]) =
      (LweObject.after calls).bind fun lwe => LweCall.run lwe call := by
  rw [LweObject.after, List.foldlM_append]
  change (LweObject.after calls).bind _ = _
  congr 1
  funext lwe
  rw [List.foldlM_cons]
  exact bind_pure (LweCall.run lwe call)

/-- The calls go through if no absorption is chosen with parameters that do not belong together. -/
theorem LweObject.after_spec (calls : List LweCall) :
    (Guarded calls →
      ∃ lwe, LweObject.after calls = some lwe ∧ Standing (configured calls) lwe) ∧
    (¬ Guarded calls → LweObject.after calls = none) := by
  induction calls using List.reverseRecOn with
  | nil =>
      refine ⟨fun _ => ⟨LweObject.fresh, rfl, .unset ⟨rfl, rfl, rfl, rfl⟩⟩, ?_⟩
      intro unguarded
      refine absurd ?_ unguarded
      intro before elt_nbr initial
      exact absurd (List.prefix_nil.mp initial) (by simp)
  | append_singleton calls call ih =>
      rcases ih with ⟨ih, failed⟩
      rw [guarded_append_singleton, after_append_singleton, configured_append_singleton]
      by_cases guarded : Guarded calls
      · rcases ih guarded with ⟨lwe, after_eq, standing⟩
        rw [after_eq, Option.bind_some]
        cases call with
        | setNewParameters securityBits polyDegree nbModuli absPCBitsize rnd =>
            refine ⟨fun _ => standing.setNewParameters _ _ _ _ _, ?_⟩
            intro unguarded
            exact absurd ⟨guarded, fun _ clash => by contradiction⟩ unguarded
        | setpolyDegree polyDegree =>
            refine ⟨fun _ => standing.setpolyDegree polyDegree, ?_⟩
            intro unguarded
            exact absurd ⟨guarded, fun _ clash => by contradiction⟩ unguarded
        | setandgetAbsBitPerCiphertext elt_nbr =>
            cases flag : configured calls with
            | true =>
                rw [flag] at standing
                refine ⟨fun _ => standing.setandgetAbsBitPerCiphertext elt_nbr, ?_⟩
                intro unguarded
                exact absurd ⟨guarded, fun _ _ => rfl⟩ unguarded
            | false =>
                rw [flag] at standing
                refine ⟨?_, fun _ => standing.setandgetAbsBitPerCiphertext_eq_none elt_nbr⟩
                rintro ⟨-, last⟩
                exact absurd (last elt_nbr rfl) Bool.false_ne_true
      · rw [failed guarded, Option.bind_none]
        exact ⟨fun both => absurd both.1 guarded, fun _ => rfl⟩

theorem LweObject.restored_of_consistent {calls : List LweCall} {lwe : LweObject}
    (after_eq : LweObject.after calls = some lwe) (consistent : lwe.Consistent) :
    Restored calls := by
  rcases LweObject.after_spec calls with ⟨succeeds, fails⟩
  have guarded : Guarded calls := by
    by_contra unguarded
    rw [fails unguarded] at after_eq
    contradiction
  rcases succeeds guarded with ⟨reached, reached_eq, standing⟩
  rw [after_eq, Option.some.injEq] at reached_eq
  subst reached_eq
  exact ⟨standing.consistent_iff.mp consistent, guarded⟩

/--
After any calls, the object is consistent exactly if all parameters have been set since the
degree was last set alone, and had been whenever the absorption was chosen.
-/
theorem LweObject.consistent_iff_restored (calls : List LweCall) :
    (∃ lwe, LweObject.after calls = some lwe ∧ lwe.Consistent) ↔ Restored calls := by
  constructor
  · rintro ⟨lwe, after_eq, consistent⟩
    exact restored_of_consistent after_eq consistent
  · rintro ⟨flag, guarded⟩
    rcases (LweObject.after_spec calls).1 guarded with ⟨lwe, after_eq, standing⟩
    exact ⟨lwe, after_eq, standing.consistent_iff.mpr flag⟩

/-- Setting the degree alone leaves the object with the moduli of the configuration before. -/
theorem LweObject.not_consistent_setpolyDegree :
    ¬ ∃ lwe, LweObject.after
        [.setNewParameters 80 ⟨1024, by decide⟩ ⟨1, by decide⟩ (-1) fun _ => 0,
          .setpolyDegree ⟨2048, by decide⟩] = some lwe ∧ lwe.Consistent := by
  rintro ⟨lwe, after_eq, consistent⟩
  exact Bool.false_ne_true (restored_of_consistent after_eq consistent).1

end Xpir
