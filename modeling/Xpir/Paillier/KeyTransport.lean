import Xpir.Paillier.PaillierKeys
import Xpir.Session.CryptoParams

/-!
# Transport of the public key

The client sends the bytes of its modulus, the most significant one first, followed by the
exponent as an `int`. The server computes the generator and the powers that the exponent
asks for. It computes the others when they are needed, and recognises them by the value
one that it has given to all of them before.

An exponent that is too large is replaced by the largest one whose powers fit in the
array, and no access leaves the array.
-/

namespace Xpir

namespace PaillierPubkey

open CryptoMethod (mpzExport mpzImport)

variable (key : PaillierPubkey)

/-- The bytes of the modulus, in a memory for those of a key, and the exponent. -/
def getByteModulus (keyBitsize : ℕ) : List UInt8 :=
  (mpzExport (key.getnj 1).2 ++ List.replicate (keyBitsize / 8) 0).take (keyBitsize / 8) ++
    writeInt (UInt32.ofNat key.initS)

/-- A power in the array; behind its end there is none. -/
def setNj (i : ℕ) : Option PaillierPubkey :=
  if i ≤ maxS then some (key.initNj i) else none

/-- The exponent that the server uses. -/
def boundedExponent (received : UInt32) : UInt32 :=
  if (maxS : ℤ) ≤ received.toInt32.toInt then UInt32.ofNat (maxS - 1) else received

/-- `init_key` with a raw key; the exponent is `unsigned`, and so is the bound of the loop. -/
def initRawKey (keyBitsize : ℕ) (rawKey : List UInt8) : Option PaillierPubkey :=
  (readInt (rawKey.drop (keyBitsize / 8))).bind fun (received, _) =>
    let modulus := mpzImport (rawKey.take (keyBitsize / 8))
    let initS := boundedExponent received
    (List.range ((initS + 1).toNat - 1)).foldlM (fun key i => key.setNj (i + 2))
      { bits := keyBitsize
        nj := Function.update initKey.nj 1 modulus
        initS := initS.toNat
        g := modulus + 1 }

/-- The accesses to the powers that follow. -/
def access (accesses : List ℕ) : PaillierPubkey :=
  accesses.foldl (fun key s => (key.getnj s).1) key

/-- Only the powers in the array have been written. -/
def InArray : Prop := ∀ i, maxS < i → key.nj i = 1

section Import

variable {key}

theorem mpzImport_mpzExport (value : ℕ) : mpzImport (mpzExport value) = value := by
  rw [mpzImport, mpzExport, List.reverse_reverse, decodeBytes_encodeBytes]
  apply Nat.mod_eq_of_lt
  calc value < 2 ^ value.size := Nat.lt_size_self value
    _ ≤ 2 ^ (8 * ((value.size + 7) / 8)) := Nat.pow_le_pow_right (by decide) (by omega)
    _ = 256 ^ ((value.size + 7) / 8) := by rw [Nat.pow_mul]

/-- The memory holds exactly the bytes of a modulus of the size of the key. -/
theorem getByteModulus_eq {keyBitsize n : ℕ} (whole : 8 ∣ keyBitsize)
    (size_eq : n.size = keyBitsize) (modulus_eq : key.nj 1 = n) :
    (key.getByteModulus keyBitsize) = mpzExport n ++ writeInt (UInt32.ofNat key.initS) ∧
      (mpzExport n).length = keyBitsize / 8 := by
  have length_eq : (mpzExport n).length = keyBitsize / 8 := by
    rw [mpzExport, List.length_reverse, length_encodeBytes, size_eq]
    omega
  have power_eq : (key.getnj 1).2 = n := by
    rw [getnj_value (by decide), modulus_eq, pow_one, ite_self]
  rw [getByteModulus, power_eq, List.take_left' length_eq]
  exact ⟨rfl, length_eq⟩

/-- The loop computes powers of the modulus, and stays in the array if the exponent does. -/
theorem foldlM_setNj {n count : ℕ} (count_lt : count < maxS) (keyed : key.Keyed n)
    (inArray : key.InArray) :
    ∃ final, (List.range count).foldlM (fun key i => key.setNj (i + 2)) key = some final ∧
      final.Keyed n ∧ final.InArray ∧ final.bits = key.bits ∧ final.initS = key.initS := by
  induction count with
  | zero => exact ⟨key, rfl, keyed, inArray, rfl, rfl⟩
  | succ count ih =>
      rcases ih (by omega) with ⟨before, runs, before_keyed, before_inArray, bits_eq, initS_eq⟩
      refine ⟨before.initNj (count + 2), ?_, ⟨before_keyed.g_eq, ?_, ?_⟩, ?_, bits_eq, initS_eq⟩
      · rw [foldlM_range_succ, runs, Option.bind_some, setNj, if_pos (by omega)]
      · rw [initNj_nj, Function.update_of_ne (by omega), before_keyed.modulus_eq]
      · intro i
        rw [initNj_nj, before_keyed.modulus_eq]
        rcases eq_or_ne i (count + 2) with rfl | other
        · exact Or.inr (Function.update_self ..)
        · rw [Function.update_of_ne other]
          exact before_keyed.cached i
      · intro i beyond
        rw [initNj_nj, Function.update_of_ne (by omega)]
        exact before_inArray i beyond

theorem InArray.getnj (inArray : key.InArray) (s : ℕ) : (key.getnj s).1.InArray := by
  intro i beyond
  have bounded_le : (if maxS < s then maxS else s) ≤ maxS := by split <;> omega
  rw [PaillierPubkey.getnj]
  generalize (if maxS < s then maxS else s) = bounded at bounded_le ⊢
  simp only
  split
  next =>
    rw [initNj_nj, Function.update_of_ne (by omega)]
    exact inArray i beyond
  next => exact inArray i beyond

/-- Later accesses compute the same powers. -/
theorem access_spec {n : ℕ} (accesses : List ℕ) (keyed : key.Keyed n) (inArray : key.InArray) :
    (key.access accesses).Keyed n ∧ (key.access accesses).InArray := by
  induction accesses using List.reverseRecOn with
  | nil => exact ⟨keyed, inArray⟩
  | append_singleton earlier s ih =>
      rw [access, List.foldl_append]
      exact ⟨ih.1.getnj s, ih.2.getnj s⟩

/-- A raw key with a positive exponent is imported without leaving the array. -/
theorem initRawKey_spec {keyBitsize : ℕ} {rawKey rest : List UInt8} {received : UInt32}
    (exponent : readInt (rawKey.drop (keyBitsize / 8)) = some (received, rest))
    (received_pos : 1 ≤ received.toInt32.toInt) :
    ∃ imported, initRawKey keyBitsize rawKey = some imported ∧
      imported.Keyed (mpzImport (rawKey.take (keyBitsize / 8))) ∧ imported.InArray ∧
      imported.bits = keyBitsize ∧ imported.initS = (boundedExponent received).toNat := by
  have exponent_lt : (boundedExponent received).toNat < maxS := by
    rw [boundedExponent]
    split
    next => decide
    next small =>
      have value_eq : received.toInt32.toInt = (received.toNat : ℤ) ∨
          received.toInt32.toInt < 0 := by
        have received_lt := received.toNat_lt
        have signed : received.toInt32.toInt = Int.bmod received.toNat (2 ^ 32) :=
          BitVec.toInt_eq_toNat_bmod received.toBitVec
        rw [signed, Int.bmod]
        split <;> omega
      rw [maxS] at small ⊢
      omega
  have count_lt : (boundedExponent received + 1).toNat - 1 < maxS := by
    rw [UInt32.toNat_add, maxS] at *
    change ((boundedExponent received).toNat + 1) % 2 ^ 32 - 1 < 7
    omega
  rw [initRawKey, exponent, Option.bind_some]
  have keyed : Keyed { bits := keyBitsize
                       nj := Function.update initKey.nj 1
                         (mpzImport (rawKey.take (keyBitsize / 8)))
                       initS := (boundedExponent received).toNat
                       g := mpzImport (rawKey.take (keyBitsize / 8)) + 1 }
      (mpzImport (rawKey.take (keyBitsize / 8))) := by
    refine ⟨rfl, by simp, fun i => ?_⟩
    rcases eq_or_ne i 1 with rfl | other
    · exact Or.inr (by simp)
    · exact Or.inl (by simp [other, initKey, mpzGetUi])
  have inArray : InArray { bits := keyBitsize
                           nj := Function.update initKey.nj 1
                             (mpzImport (rawKey.take (keyBitsize / 8)))
                           initS := (boundedExponent received).toNat
                           g := mpzImport (rawKey.take (keyBitsize / 8)) + 1 } := by
    intro i beyond
    rw [maxS] at beyond
    simp [Function.update_of_ne (by omega : i ≠ 1), initKey]
  rcases foldlM_setNj count_lt keyed inArray with
    ⟨imported, runs, imported_keyed, imported_inArray, bits_eq, initS_eq⟩
  exact ⟨imported, runs, imported_keyed, imported_inArray, bits_eq, initS_eq⟩

/-- A positive exponent is bounded as an `int`. -/
theorem boundedExponent_ofNat {initS : ℕ} (initS_lt : initS < 2 ^ 31) :
    (UInt32.ofNat initS).toInt32.toInt = initS ∧
      (boundedExponent (UInt32.ofNat initS)).toNat = if initS < maxS then initS else maxS - 1 := by
  have signed : (UInt32.ofNat initS).toInt32.toInt =
      Int.bmod (UInt32.ofNat initS).toNat (2 ^ 32) :=
    BitVec.toInt_eq_toNat_bmod (UInt32.ofNat initS).toBitVec
  have value_eq : (UInt32.ofNat initS).toNat = initS := by
    rw [UInt32.toNat_ofNat', Nat.mod_eq_of_lt (by omega)]
  have int_eq : (UInt32.ofNat initS).toInt32.toInt = initS := by
    rw [signed, value_eq]
    exact Int.bmod_eq_of_le (by omega) (by omega)
  refine ⟨int_eq, ?_⟩
  rw [boundedExponent, int_eq]
  split
  next large =>
    rw [if_neg (by omega)]
    rfl
  next small => rw [if_pos (by omega), value_eq]

/-- A session sends the memory of the key. -/
theorem getByteModulus_eq_session {params : PaillierParameters} (modulus_eq : key.nj 1 = params.n)
    (initS_eq : UInt32.ofNat key.initS = params.initS.toUInt32) :
    key.getByteModulus params.bitKeySize.toNat =
      (CryptoMethod.Paillier params).getByteModulus := by
  have power_eq : (key.getnj 1).2 = params.n := by
    rw [getnj_value (by decide), modulus_eq, pow_one, ite_self]
  rw [getByteModulus, power_eq, initS_eq]
  rfl

/-- The object of a session takes the modulus and the exponent of the imported key. -/
theorem initRawKey_eq_session {params : PaillierParameters} {rawKey rest : List UInt8}
    {received : UInt32}
    (exponent : readInt (rawKey.drop (params.bitKeySize.toNat / 8)) = some (received, rest))
    (received_pos : 1 ≤ received.toInt32.toInt) :
    ∃ imported, initRawKey params.bitKeySize.toNat rawKey = some imported ∧
      (CryptoMethod.Paillier params).setModulus rawKey = some (.Paillier { params with
        n := imported.nj 1
        initS := (UInt32.ofNat imported.initS).toInt32 }) := by
  rcases initRawKey_spec exponent received_pos with ⟨imported, imports, keyed, _, _, initS_eq⟩
  refine ⟨imported, imports, ?_⟩
  have exponent_eq : (boundedExponent received).toInt32 =
      if (maxS : ℤ) ≤ received.toInt32.toInt then Int32.ofNat (maxS - 1)
      else received.toInt32 := by
    rw [boundedExponent, apply_ite UInt32.toInt32]
    rfl
  rw [CryptoMethod.setModulus, exponent, Option.map_some, keyed.modulus_eq, initS_eq,
    UInt32.ofNat_toNat, exponent_eq]

end Import

/--
A key with a modulus of exactly the size that both ends use arrives with its exponent, as
far as that is small enough, and gives the same powers in all accesses that follow. No raw
key with a large exponent makes the server leave the array.
-/
theorem initRawKey_getByteModulus {keyBitsize : ℕ} (whole : 8 ∣ keyBitsize) :
    (∀ sender : PaillierPubkey, (sender.nj 1).size = keyBitsize → 1 ≤ sender.initS →
      sender.initS < 2 ^ 31 →
      ∃ received, initRawKey keyBitsize (sender.getByteModulus keyBitsize) = some received ∧
        received.bits = keyBitsize ∧
        received.initS = (if sender.initS < maxS then sender.initS else maxS - 1) ∧
        ∀ accesses, (received.access accesses).nj 1 = sender.nj 1 ∧
          (received.access accesses).Consistent (sender.nj 1) ∧
          (received.access accesses).InArray) ∧
    ∀ rawKey word rest, readInt (rawKey.drop (keyBitsize / 8)) = some (word, rest) →
      (maxS : ℤ) ≤ word.toInt32.toInt →
      ∃ received, initRawKey keyBitsize rawKey = some received ∧ received.initS = maxS - 1 ∧
        ∀ accesses, (received.access accesses).InArray := by
  constructor
  · intro sender size_eq initS_pos initS_lt
    rcases getByteModulus_eq whole size_eq rfl with ⟨rawKey_eq, length_eq⟩
    rcases boundedExponent_ofNat initS_lt with ⟨int_eq, bounded_eq⟩
    have exponent : readInt ((sender.getByteModulus keyBitsize).drop (keyBitsize / 8)) =
        some (UInt32.ofNat sender.initS, []) := by
      rw [rawKey_eq, List.drop_left' length_eq]
      simpa using readInt_writeInt (UInt32.ofNat sender.initS) []
    have modulus : mpzImport ((sender.getByteModulus keyBitsize).take (keyBitsize / 8)) =
        sender.nj 1 := by
      rw [rawKey_eq, List.take_left' length_eq, mpzImport_mpzExport]
    rcases initRawKey_spec exponent (by omega) with
      ⟨received, imports, keyed, inArray, bits_eq, initS_eq⟩
    rw [modulus] at keyed
    refine ⟨received, imports, bits_eq, by rw [initS_eq, bounded_eq], fun accesses => ?_⟩
    rcases access_spec accesses keyed inArray with ⟨accessed, accessed_inArray⟩
    exact ⟨accessed.modulus_eq, accessed.consistent, accessed_inArray⟩
  · intro rawKey word rest exponent large
    have received_pos : 1 ≤ word.toInt32.toInt := by
      rw [maxS] at large
      omega
    rcases initRawKey_spec exponent received_pos with
      ⟨received, imports, keyed, inArray, _, initS_eq⟩
    refine ⟨received, imports, ?_, fun accesses => (access_spec accesses keyed inArray).2⟩
    rw [initS_eq, boundedExponent, if_pos large]
    rfl

/-- A modulus of one byte with the exponent nine, which is too large. -/
theorem initRawKey_getByteModulus_nine :
    ∃ received, initRawKey 8 (getByteModulus
        { bits := 8, nj := fun i => 143 ^ i, initS := 9, g := 144 } 8) = some received ∧
      received.bits = 8 ∧ received.initS = 6 ∧
      ∀ accesses, (received.access accesses).nj 1 = 143 ∧
        (received.access accesses).Consistent 143 ∧ (received.access accesses).InArray :=
  (initRawKey_getByteModulus (by decide)).1
    { bits := 8, nj := fun i => 143 ^ i, initS := 9, g := 144 } (by decide) (by decide) (by decide)

end PaillierPubkey

end Xpir
