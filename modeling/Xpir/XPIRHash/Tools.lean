import Mathlib.Algebra.BigOperators.Group.Finset.Basic
import Xpir.Foundations.Loop
import Xpir.Foundations.Occurrences

/-!
# Tools of the hash application

This file contains the functions of the class `Tools` that both ends use: the splitting of a
text at a delimiter, and the check that the parameters of the retrieval cover the database.
-/

namespace Xpir.Tools

/-- What is left of the text, and the tokens found so far. -/
structure TokenState where
  entry : List Char
  tokens : List (List Char)

/-- The part before the delimiter is a token, and erased with the delimiter. -/
def tokenStep (delimiter : List Char) (state : TokenState) : Option TokenState :=
  (find delimiter state.entry).map fun pos =>
    { entry := state.entry.drop (pos + delimiter.length)
      tokens := state.tokens ++ [state.entry.take pos] }

/-- After the loop, the position is `npos`, and the last token is all that is left. -/
def tokenize (fuel : ℕ) (entry delimiter : List Char) : Option (List (List Char)) :=
  (whileLoop (fun state => (find delimiter state.entry).isSome) (tokenStep delimiter) fuel
    { entry := entry, tokens := [] }).map fun state => state.tokens ++ [state.entry]

/-- The call ends with the given tokens, however long it may take. -/
def Tokenizes (entry delimiter : List Char) (tokens : List (List Char)) : Prop :=
  ∃ enough, ∀ fuel, enough ≤ fuel → tokenize fuel entry delimiter = some tokens

section Tokens

variable {entry delimiter : List Char}

theorem intercalate_append_singleton (delimiter : List Char) (tokens : List (List Char))
    (before after : List Char) :
    delimiter.intercalate (tokens ++ [before ++ (delimiter ++ after)]) =
      delimiter.intercalate (tokens ++ [before] ++ [after]) := by
  induction tokens with
  | nil => simp
  | cons token tokens ih =>
      cases tokens with
      | nil => simp
      | cons next tokens => simpa using ih

/-- What is erased is the delimiter that joins a token to the rest. -/
theorem tokenStep_spec (nonempty : delimiter ≠ []) {state : TokenState}
    (continues : (find delimiter state.entry).isSome) :
    ∃ next, tokenStep delimiter state = some next ∧
      delimiter.intercalate (next.tokens ++ [next.entry]) =
        delimiter.intercalate (state.tokens ++ [state.entry]) ∧
      (∀ token ∈ next.tokens, token ∈ state.tokens ∨ ¬ delimiter <:+: token) ∧
      next.entry.length < state.entry.length := by
  rcases Option.isSome_iff_exists.mp continues with ⟨pos, found⟩
  have parts := find_split found
  have length_pos := List.length_pos_of_ne_nil nonempty
  refine ⟨_, by rw [tokenStep, found, Option.map_some], ?_, ?_, ?_⟩
  · change delimiter.intercalate (state.tokens ++ [state.entry.take pos] ++
      [state.entry.drop (pos + delimiter.length)]) = _
    rw [← intercalate_append_singleton, parts]
  · intro token mem
    rcases List.mem_append.mp mem with earlier | last
    · exact Or.inl earlier
    · rw [List.mem_singleton.mp last]
      exact Or.inr (find_first nonempty found)
  · have lengths := congrArg List.length parts
    rw [List.length_append, List.length_append] at lengths
    change (state.entry.drop (pos + delimiter.length)).length < _
    omega

theorem tokenizes (nonempty : delimiter ≠ []) (entry : List Char) :
    ∃ tokens, Tokenizes entry delimiter tokens ∧ delimiter.intercalate tokens = entry ∧
      tokens ≠ [] ∧ ∀ token ∈ tokens, ¬ delimiter <:+: token := by
  let initial : TokenState := { entry := entry, tokens := [] }
  rcases whileLoop_total (fun state => (find delimiter state.entry).isSome) (tokenStep delimiter)
    (fun state => delimiter.intercalate (state.tokens ++ [state.entry]) = entry ∧
      ∀ token ∈ state.tokens, ¬ delimiter <:+: token)
    (fun state => state.entry.length)
    (by
      rintro state ⟨joined, free⟩ continues
      rcases tokenStep_spec nonempty continues with ⟨next, steps, same, known, shorter⟩
      refine ⟨next, steps, ⟨same.trans joined, ?_⟩, shorter⟩
      intro token mem
      rcases known token mem with earlier | found
      · exact free token earlier
      · exact found)
    (entry.length + 1) initial ⟨by simp [initial], by simp [initial]⟩ (Nat.lt_succ_self _)
    with ⟨final, runs, ⟨joined, free⟩, stops⟩
  refine ⟨final.tokens ++ [final.entry], ⟨entry.length + 1, ?_⟩, joined, by simp, ?_⟩
  · intro fuel enough
    rw [tokenize, whileLoop_mono (fun _ _ same => same) enough runs, Option.map_some]
  · intro token mem
    rcases List.mem_append.mp mem with earlier | last
    · exact free token earlier
    · rw [List.mem_singleton.mp last, ← find_eq_none_iff]
      exact Option.not_isSome_iff_eq_none.mp (by rw [stops]; decide)

/-- Both lists are what the text is split into at the character. -/
theorem tokenizes_intercalate (c : Char) {tokens : List (List Char)} (nonempty : tokens ≠ [])
    (free : ∀ token ∈ tokens, c ∉ token) : Tokenizes ([c].intercalate tokens) [c] tokens := by
  rcases tokenizes (List.cons_ne_nil c []) ([c].intercalate tokens) with
    ⟨found, tokenized, joined, found_nonempty, found_free⟩
  have same : found = tokens := by
    rw [← List.splitOn_intercalate c free nonempty, ← joined,
      List.splitOn_intercalate c _ found_nonempty]
    intro token mem
    rw [← List.singleton_infix_iff]
    exact found_free token mem
  rwa [same] at tokenized

/--
The delimiter joins the tokens of a text to the text again, and occurs in none of them. For a
delimiter of one character, tokenizing inverts the joining of a list that is not empty.
-/
theorem tokenize_exact {delimiter : List Char} (nonempty : delimiter ≠ []) (entry : List Char) :
    (∃ tokens, Tokenizes entry delimiter tokens ∧ delimiter.intercalate tokens = entry ∧
      ∀ token ∈ tokens, ¬ delimiter <:+: token) ∧
    ∀ (c : Char) (tokens : List (List Char)), tokens ≠ [] → (∀ token ∈ tokens, c ∉ token) →
      Tokenizes ([c].intercalate tokens) [c] tokens := by
  refine ⟨?_, fun c tokens => tokenizes_intercalate c⟩
  rcases tokenizes nonempty entry with ⟨tokens, tokenized, joined, _, free⟩
  exact ⟨tokens, tokenized, joined, free⟩

/-- Overlapping occurrences are taken from the left. -/
theorem tokenize_exact_overlapping :
    ∃ tokens, Tokenizes ['a', 'b', 'a', 'b', 'a'] ['a', 'b', 'a'] tokens ∧
      ['a', 'b', 'a'].intercalate tokens = ['a', 'b', 'a', 'b', 'a'] ∧
      ∀ token ∈ tokens, ¬ ['a', 'b', 'a'] <:+: token :=
  (tokenize_exact (List.cons_ne_nil 'a' ['b', 'a']) _).1

/-- Of the empty list, nothing but the empty text is left, and that has one token. -/
theorem not_tokenizes_nil : ¬ Tokenizes ([','].intercalate []) [','] [] := by
  rintro ⟨enough, found⟩
  have one := found (enough + 1) (Nat.le_succ enough)
  exact absurd one (by simp [tokenize, whileLoop, find])

end Tokens

section Parameters

/-- The factors are unsigned, and so is the product before it is stored again. -/
def multiply (total : Int32) (n : UInt32) : Int32 := (total.toUInt32 * n).toInt32

/-- The total is converted to 64 bits for the comparison. -/
def verifyParams (d : ℕ) (alpha : UInt64) (n : ℕ → UInt32) (numEntries : UInt64) : ℕ :=
  let total := forLoop d (fun i total => multiply total (n i)) alpha.toUInt32.toInt32
  if UInt64.ofInt total.toInt < numEntries then 0 else 1

/-- The number of entries that the parameters have room for. -/
def capacity (d : ℕ) (alpha : UInt64) (n : ℕ → UInt32) : ℕ :=
  alpha.toNat * ∏ i ∈ Finset.range d, (n i).toNat

/-- The parameters are accepted exactly if they cover the database. -/
def VerifiesCapacity (d : ℕ) (alpha : UInt64) (n : ℕ → UInt32) (numEntries : UInt64) : Prop :=
  verifyParams d alpha n numEntries = 1 ↔ numEntries.toNat ≤ capacity d alpha n

/--
The low half of the capacity is not negative as an `int`, and the database is not larger than
it, or larger than the capacity. Or it is negative, and the database is not larger, or larger,
than both the capacity and the number of 64 bits that the low half is extended to.
-/
def Decisive (capacity numEntries : ℕ) : Prop :=
  if capacity % 2 ^ 32 < 2 ^ 31 then numEntries ≤ capacity % 2 ^ 32 ∨ capacity < numEntries
  else (numEntries ≤ capacity ∧ numEntries ≤ 2 ^ 64 - 2 ^ 32 + capacity % 2 ^ 32) ∨
    (capacity < numEntries ∧ 2 ^ 64 - 2 ^ 32 + capacity % 2 ^ 32 < numEntries)

instance (capacity numEntries : ℕ) : Decidable (Decisive capacity numEntries) :=
  inferInstanceAs (Decidable (if capacity % 2 ^ 32 < 2 ^ 31 then _ else _))

variable {d : ℕ} {alpha : UInt64} {n : ℕ → UInt32} {numEntries : UInt64}

/-- The loop computes the low half of the capacity. -/
theorem total_eq (d : ℕ) (alpha : UInt64) (n : ℕ → UInt32) :
    (forLoop d (fun i total => multiply total (n i)) alpha.toUInt32.toInt32).toUInt32.toNat =
      capacity d alpha n % 2 ^ 32 := by
  induction d with
  | zero =>
      rw [forLoop_zero, UInt32.toUInt32_toInt32, UInt64.toNat_toUInt32, capacity,
        Finset.prod_range_zero, Nat.mul_one]
  | succ d ih =>
      rw [forLoop_succ, multiply, UInt32.toUInt32_toInt32, UInt32.toNat_mul, ih, capacity,
        capacity, Finset.prod_range_succ, ← Nat.mul_assoc, Nat.mod_mul_mod]

theorem ofInt_toInt (total : Int32) :
    (UInt64.ofInt total.toInt).toNat =
      if total.toUInt32.toNat < 2 ^ 31 then total.toUInt32.toNat
      else 2 ^ 64 - 2 ^ 32 + total.toUInt32.toNat := by
  have low_lt := total.toUInt32.toNat_lt
  have signed : total.toInt = if 2 * total.toUInt32.toNat < 2 ^ 32 then
      (total.toUInt32.toNat : ℤ) else (total.toUInt32.toNat : ℤ) - (2 ^ 32 : ℕ) :=
    BitVec.toInt_eq_toNat_cond total.toBitVec
  rw [UInt64.ofInt, UInt64.toNat_ofNat', signed]
  split_ifs <;> omega

/--
Parameters are accepted exactly if they cover the database, unless the database lies between
the capacity and what the `int` makes of it.
-/
theorem verifyParams_iff (d : ℕ) (alpha : UInt64) (n : ℕ → UInt32) (numEntries : UInt64) :
    VerifiesCapacity d alpha n numEntries ↔
      Decisive (capacity d alpha n) numEntries.toNat := by
  have low_le := Nat.mod_le (capacity d alpha n) (2 ^ 32)
  have accepted : verifyParams d alpha n numEntries = 1 ↔ numEntries.toNat ≤
      if capacity d alpha n % 2 ^ 32 < 2 ^ 31 then capacity d alpha n % 2 ^ 32
      else 2 ^ 64 - 2 ^ 32 + capacity d alpha n % 2 ^ 32 := by
    rw [verifyParams, ← total_eq, ← ofInt_toInt, ← UInt64.le_iff_toNat_le, ← UInt64.not_lt]
    simp
  rw [VerifiesCapacity, accepted, Decisive]
  split_ifs <;> omega

/-- A product that is negative as an `int` is accepted for almost all databases. -/
theorem not_verifiesCapacity_negative :
    ¬ VerifiesCapacity 2 1 (fun i => if i = 0 then 65536 else 32768) 1099511627776 := by
  rw [VerifiesCapacity]
  decide

end Parameters

end Xpir.Tools
