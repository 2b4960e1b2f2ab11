import Mathlib.Data.List.GetD
import Mathlib.Logic.Relation
import Xpir.Foundations.Loop
import Xpir.XPIRHash.Tools

/-!
# The membership client

The client asks whether genomic variants are among those of an uploaded VCF file.
Both the upload and the query hash a string made of the four columns of a variant,
without anything between the columns. The reply holds the slots of a database
entry, from which the queried hash has been subtracted; the variant is taken to be
present if one of the slots the client looks at is zero.
-/

namespace Xpir.PIRClient

section Strings

/-- The parts of a string between the occurrences of a delimiter. -/
def tokenize (delimiter : Char) : List Char → List (List Char)
  | [] => [[]]
  | c :: entry =>
      if c = delimiter then [] :: tokenize delimiter entry
      else (tokenize delimiter entry).modifyHead (c :: ·)

theorem tokenize_map {delimiter : Char} {f : Char → Char}
    (keeps : ∀ c, f c = delimiter ↔ c = delimiter) (entry : List Char) :
    tokenize delimiter (entry.map f) = (tokenize delimiter entry).map (List.map f) := by
  induction entry with
  | nil => rfl
  | cons c entry ih =>
      simp only [List.map_cons, tokenize, keeps, ih]
      split
      next => rfl
      next => cases tokenize delimiter entry <;> rfl

theorem mem_of_mem_tokenize {delimiter x : Char} {entry token : List Char}
    (token_mem : token ∈ tokenize delimiter entry) (x_mem : x ∈ token) : x ∈ entry := by
  induction entry generalizing token with
  | nil =>
      rw [tokenize, List.mem_singleton] at token_mem
      exact absurd x_mem (by simp [token_mem])
  | cons c entry ih =>
      rw [tokenize] at token_mem
      split at token_mem
      · rcases List.mem_cons.mp token_mem with rfl | later
        · exact absurd x_mem (by simp)
        · exact List.mem_cons_of_mem c (ih later x_mem)
      · cases tokens : tokenize delimiter entry with
        | nil => exact absurd token_mem (by simp [tokens])
        | cons first rest =>
            rw [tokens, List.modifyHead_cons, List.mem_cons] at token_mem
            rcases token_mem with rfl | later
            · rcases List.mem_cons.mp x_mem with rfl | inside
              · exact List.mem_cons_self
              · exact List.mem_cons_of_mem c (ih (by simp [tokens]) inside)
            · exact List.mem_cons_of_mem c (ih (by simp [tokens, later]) x_mem)

theorem delimiter_notMem_of_mem_tokenize {delimiter : Char} {entry token : List Char}
    (token_mem : token ∈ tokenize delimiter entry) : delimiter ∉ token := by
  induction entry generalizing token with
  | nil =>
      rw [tokenize, List.mem_singleton] at token_mem
      simp [token_mem]
  | cons c entry ih =>
      rw [tokenize] at token_mem
      split at token_mem
      next =>
        rcases List.mem_cons.mp token_mem with rfl | later
        · exact List.not_mem_nil
        · exact ih later
      next other =>
        cases tokens : tokenize delimiter entry with
        | nil => exact absurd token_mem (by simp [tokens])
        | cons first rest =>
            rw [tokens, List.modifyHead_cons, List.mem_cons] at token_mem
            rcases token_mem with rfl | later
            · exact List.not_mem_cons_of_ne_of_not_mem (Ne.symm other) (ih (by simp [tokens]))
            · exact ih (by simp [tokens, later])

theorem intercalate_tokenize (delimiter : Char) (entry : List Char) :
    tokenize delimiter entry ≠ [] ∧ [delimiter].intercalate (tokenize delimiter entry) = entry := by
  induction entry with
  | nil => exact ⟨List.cons_ne_nil _ _, rfl⟩
  | cons c entry ih =>
      rcases ih with ⟨nonempty, joined⟩
      rcases List.exists_cons_of_ne_nil nonempty with ⟨first, rest, tokens⟩
      rw [tokens] at joined
      rw [tokenize, tokens]
      split
      next same =>
        refine ⟨List.cons_ne_nil _ _, ?_⟩
        rw [List.intercalate_cons_cons, joined, same]
        rfl
      next =>
        refine ⟨List.cons_ne_nil _ _, ?_⟩
        rw [← joined]
        cases rest <;> rfl

/-- The parts are the tokens that the loop of the tool gives. -/
theorem tokenizes_tokenize (delimiter : Char) (entry : List Char) :
    Tools.Tokenizes entry [delimiter] (tokenize delimiter entry) := by
  rcases intercalate_tokenize delimiter entry with ⟨nonempty, joined⟩
  have tokenized := Tools.tokenizes_intercalate delimiter nonempty
    fun _ token_mem => delimiter_notMem_of_mem_tokenize token_mem
  rwa [joined] at tokenized

/-- The columns of a variant that are hashed. -/
structure Variant where
  chr : List Char
  pos : List Char
  ref : List Char
  alt : List Char
deriving DecidableEq

/-- The string that is hashed. -/
def Variant.text (variant : Variant) : List Char :=
  variant.chr ++ variant.pos ++ variant.ref ++ variant.alt

end Strings

section Query

def replaceDot (c : Char) : Char := if c = '.' then ' ' else c

/-- Flags and their values on the command line; every value but the file is changed. -/
def parseEntry (arguments : List (Char × List Char)) (flag : Char) : Option (List Char) :=
  (arguments.find? fun argument => argument.1 = flag).map fun argument =>
    if flag ≠ 'f' then argument.2.map replaceDot else argument.2

/-- `entry[flag]`, which is empty for a flag that is not there. -/
def entryAt (arguments : List (Char × List Char)) (flag : Char) : List Char :=
  (parseEntry arguments flag).getD []

def entryError (arguments : List (Char × List Char)) : Bool :=
  let argc := 2 * arguments.length + 1
  if arguments = [] ∨ argc ≠ 3 ∧ argc ≠ 11 then true
  else if argc = 3 then (parseEntry arguments 'f').isNone
  else
    "cpraf".toList.any (fun flag => (parseEntry arguments flag).isNone) ||
      (entryAt arguments 'c').any (fun c => !c.isDigit && c ≠ ',') ||
      (entryAt arguments 'p').any (fun c => !c.isDigit && c ≠ ',')

/-- The strings that `listQueryPos` hashes, if the fields have the same number of parts. -/
def queryStrings (arguments : List (Char × List Char)) : Option (List (List Char)) :=
  let chr := tokenize ',' (entryAt arguments 'c')
  let pos := tokenize ',' (entryAt arguments 'p')
  let ref := tokenize ',' (entryAt arguments 'r')
  let alt := tokenize ',' (entryAt arguments 'a')
  if chr.length ≠ pos.length ∨ chr.length ≠ ref.length ∨ chr.length ≠ alt.length then none
  else some ((List.range chr.length).map fun i =>
    chr.getD i [] ++ pos.getD i [] ++ ref.getD i [] ++ alt.getD i [])

/-- The position in the catalog: the first bits of the hash, which is a string of bits. -/
def catalogPos (hashSize : ℕ) (data_hash : List Char) : ℕ :=
  (data_hash.take hashSize).foldl (fun pos bit => 2 * pos + if bit = '1' then 1 else 0) 0

def listQueryPos (hash : List Char → List Char) (hashSize : ℕ)
    (arguments : List (Char × List Char)) : Option (List (ℕ × List Char)) :=
  (queryStrings arguments).map fun strings =>
    strings.map fun query_str => (catalogPos hashSize (hash query_str), hash query_str)

/-- The variant of a line of a VCF file; shorter lines are not read in a defined way. -/
def lineVariant (line : List Char) : Option Variant :=
  if line.head? = some '#' then none
  else
    match tokenize '\t' line with
    | chr :: pos :: _ :: ref :: alt :: _ => some ⟨chr, pos, ref, alt⟩
    | _ => none

/-- The string that `uploadData` hashes for a line. -/
def uploadString (line : List Char) : Option (List Char) := (lineVariant line).map Variant.text

/-- What is added to the catalog for a line, and where. -/
def uploadLine (hash : List Char → List Char) (hashSize : ℕ) (line : List Char) :
    Option (ℕ × List Char) :=
  (uploadString line).map fun text => (catalogPos hashSize (hash text), hash text)

/-- The value of a flag as it is typed. -/
def typed (arguments : List (Char × List Char)) (flag : Char) : List Char :=
  ((arguments.find? fun argument => argument.1 = flag).map Prod.snd).getD []

/-- The variant that is asked for at a place of the query, as it is typed. -/
def typedVariant (arguments : List (Char × List Char)) (i : ℕ) : Variant where
  chr := (tokenize ',' (typed arguments 'c')).getD i []
  pos := (tokenize ',' (typed arguments 'p')).getD i []
  ref := (tokenize ',' (typed arguments 'r')).getD i []
  alt := (tokenize ',' (typed arguments 'a')).getD i []

end Query

section Boundaries

/-- The character on one side of a boundary between two columns is moved to the other side. -/
inductive MovesBoundary : Variant → Variant → Prop where
  | chrPos (chr pos ref alt : List Char) (c : Char) :
      MovesBoundary ⟨chr, c :: pos, ref, alt⟩ ⟨chr ++ [c], pos, ref, alt⟩
  | posRef (chr pos ref alt : List Char) (c : Char) :
      MovesBoundary ⟨chr, pos, c :: ref, alt⟩ ⟨chr, pos ++ [c], ref, alt⟩
  | refAlt (chr pos ref alt : List Char) (c : Char) :
      MovesBoundary ⟨chr, pos, ref, c :: alt⟩ ⟨chr, pos, ref ++ [c], alt⟩

/-- One variant becomes the other by moving boundaries between the columns. -/
def SameUpToBoundaries : Variant → Variant → Prop := Relation.EqvGen MovesBoundary

theorem MovesBoundary.text_eq {left right : Variant} (moves : MovesBoundary left right) :
    left.text = right.text := by
  cases moves <;> simp [Variant.text]

theorem SameUpToBoundaries.text_eq {left right : Variant} (same : SameUpToBoundaries left right) :
    left.text = right.text := by
  induction same with
  | rel _ _ moves => exact moves.text_eq
  | refl _ => rfl
  | symm _ _ _ ih => exact ih.symm
  | trans _ _ _ _ _ first second => exact first.trans second

theorem sameUpToBoundaries_alt (chr pos ref alt : List Char) :
    SameUpToBoundaries ⟨chr, pos, ref, alt⟩ ⟨chr, pos, ref ++ alt, []⟩ := by
  induction alt generalizing ref with
  | nil =>
      rw [List.append_nil]
      exact .refl _
  | cons c alt ih =>
      have rest := ih (ref ++ [c])
      rw [List.append_assoc, List.singleton_append] at rest
      exact .trans _ _ _ (.rel _ _ (.refAlt chr pos ref alt c)) rest

theorem sameUpToBoundaries_ref (chr pos ref alt : List Char) :
    SameUpToBoundaries ⟨chr, pos, ref, alt⟩ ⟨chr, pos ++ ref, [], alt⟩ := by
  induction ref generalizing pos with
  | nil =>
      rw [List.append_nil]
      exact .refl _
  | cons c ref ih =>
      have rest := ih (pos ++ [c])
      rw [List.append_assoc, List.singleton_append] at rest
      exact .trans _ _ _ (.rel _ _ (.posRef chr pos ref alt c)) rest

theorem sameUpToBoundaries_pos (chr pos ref alt : List Char) :
    SameUpToBoundaries ⟨chr, pos, ref, alt⟩ ⟨chr ++ pos, [], ref, alt⟩ := by
  induction pos generalizing chr with
  | nil =>
      rw [List.append_nil]
      exact .refl _
  | cons c pos ih =>
      have rest := ih (chr ++ [c])
      rw [List.append_assoc, List.singleton_append] at rest
      exact .trans _ _ _ (.rel _ _ (.chrPos chr pos ref alt c)) rest

/-- All characters can be moved into the first column. -/
theorem sameUpToBoundaries_text (variant : Variant) :
    SameUpToBoundaries variant ⟨variant.text, [], [], []⟩ := by
  rcases variant with ⟨chr, pos, ref, alt⟩
  have text_eq : (⟨chr, pos, ref, alt⟩ : Variant).text = chr ++ (pos ++ (ref ++ alt)) := by
    simp only [Variant.text, List.append_assoc]
  rw [text_eq]
  apply Relation.EqvGen.trans _ _ _ (sameUpToBoundaries_alt chr pos ref alt)
  apply Relation.EqvGen.trans _ _ _ (sameUpToBoundaries_ref chr pos (ref ++ alt) [])
  exact sameUpToBoundaries_pos chr (pos ++ (ref ++ alt)) [] []

theorem sameUpToBoundaries_iff {left right : Variant} :
    SameUpToBoundaries left right ↔ left.text = right.text := by
  constructor
  · exact SameUpToBoundaries.text_eq
  · intro same
    have meet := sameUpToBoundaries_text left
    rw [same] at meet
    exact meet.trans _ _ _ ((sameUpToBoundaries_text right).symm _ _)

end Boundaries

section Clashes

/-- What is left of a typed variant when `parseEntry` has replaced the dots. -/
def Variant.replaced (variant : Variant) : Variant where
  chr := variant.chr.map replaceDot
  pos := variant.pos.map replaceDot
  ref := variant.ref.map replaceDot
  alt := variant.alt.map replaceDot

theorem map_replaceDot_eq_iff {text : List Char} : text.map replaceDot = text ↔ '.' ∉ text := by
  induction text with
  | nil => simp
  | cons c text ih =>
      rw [List.map_cons, List.cons.injEq, ih, List.mem_cons, not_or, replaceDot]
      by_cases dot : c = '.'
      · simp [dot]
      · simp [dot, Ne.symm dot]

theorem entryAt_eq {arguments : List (Char × List Char)} {flag : Char} (data_flag : flag ≠ 'f') :
    entryAt arguments flag = (typed arguments flag).map replaceDot := by
  rw [entryAt, parseEntry, typed]
  cases arguments.find? fun argument => argument.1 = flag with
  | none => rfl
  | some argument =>
      rw [Option.map_some, if_pos data_flag]
      rfl

theorem tokenize_entryAt {arguments : List (Char × List Char)} {flag : Char}
    (data_flag : flag ≠ 'f') : tokenize ',' (entryAt arguments flag) =
      (tokenize ',' (typed arguments flag)).map (List.map replaceDot) := by
  rw [entryAt_eq data_flag, tokenize_map]
  intro c
  rw [replaceDot]
  split
  next dot => simp [dot]
  next => rfl

variable {arguments : List (Char × List Char)} {strings : List (List Char)} {i : ℕ}

/-- The string that is hashed for a variant is the one of the variant without dots. -/
theorem queryStrings_getD (queries : queryStrings arguments = some strings)
    (inside : i < strings.length) :
    strings.getD i [] = (typedVariant arguments i).replaced.text := by
  rw [queryStrings] at queries
  split at queries
  · exact absurd queries (by simp)
  · have strings_eq := Option.some.inj queries
    rw [← strings_eq, List.length_map, List.length_range] at inside
    have tokens : ∀ flag ≠ 'f', (tokenize ',' (entryAt arguments flag)).getD i [] =
        ((tokenize ',' (typed arguments flag)).getD i []).map replaceDot := by
      intro flag data_flag
      rw [tokenize_entryAt data_flag]
      exact List.getD_map _ [] (List.map replaceDot)
    rw [← strings_eq, List.getD_eq_getElem?_getD, List.getElem?_map,
      List.getElem?_range inside, Option.map_some, Option.getD_some, tokens 'c' (by decide),
      tokens 'p' (by decide), tokens 'r' (by decide), tokens 'a' (by decide)]
    rfl

theorem replaced_text (variant : Variant) :
    variant.replaced.text = variant.text.map replaceDot := by
  simp [Variant.replaced, Variant.text]

/-- The numbers of an accepted query contain no dots. -/
theorem dot_notMem_typed {flag : Char} (flag_eq : flag = 'c' ∨ flag = 'p')
    (accepted : entryError arguments = false) (querying : arguments.length = 5) (i : ℕ) :
    '.' ∉ (tokenize ',' (typed arguments flag)).getD i [] := by
  intro dot
  have data_flag : flag ≠ 'f' := by rcases flag_eq with rfl | rfl <;> decide
  have typed_dot : '.' ∈ typed arguments flag := by
    rw [List.getD_eq_getElem?_getD] at dot
    cases token : (tokenize ',' (typed arguments flag))[i]? with
    | none => exact absurd dot (by simp [token])
    | some part =>
        rw [token, Option.getD_some] at dot
        exact mem_of_mem_tokenize (List.mem_of_getElem? token) dot
  have blank : ' ' ∈ entryAt arguments flag := by
    rw [entryAt_eq data_flag]
    exact List.mem_map_of_mem (f := replaceDot) typed_dot
  have some_arguments : arguments ≠ [] := by
    intro none
    rw [none] at querying
    exact absurd querying (by decide)
  rw [entryError, querying, if_neg (by simp [some_arguments]), if_neg (by decide)] at accepted
  simp only [Bool.or_eq_false_iff, List.any_eq_false] at accepted
  rcases flag_eq with rfl | rfl
  · exact absurd (accepted.1.2 ' ' blank) (by decide)
  · exact absurd (accepted.2 ' ' blank) (by decide)

/--
A query and a line of a VCF file are hashed from the same string exactly if they
hold the same variant, provided that moving the boundaries between the columns does not
turn one into the other, and that the alleles of the variant contain no dots.
-/
theorem hashedAlike_iff (accepted : entryError arguments = false)
    (querying : arguments.length = 5) (queries : queryStrings arguments = some strings)
    (inside : i < strings.length) {line : List Char} {variant : Variant}
    (columns : lineVariant line = some variant) :
    ((uploadString line = some (strings.getD i []) ↔
        lineVariant line = some (typedVariant arguments i)) ↔
      (SameUpToBoundaries (typedVariant arguments i).replaced variant →
        typedVariant arguments i = variant) ∧
      (typedVariant arguments i = variant → '.' ∉ variant.ref ∧ '.' ∉ variant.alt)) := by
  rw [queryStrings_getD queries inside, sameUpToBoundaries_iff, uploadString, columns,
    Option.map_some, Option.some.injEq, Option.some.injEq]
  have dots : '.' ∉ (typedVariant arguments i).text ↔
      '.' ∉ (typedVariant arguments i).ref ∧ '.' ∉ (typedVariant arguments i).alt := by
    have chr_dots := dot_notMem_typed (Or.inl rfl) accepted querying i
    have pos_dots := dot_notMem_typed (Or.inr rfl) accepted querying i
    simp only [Variant.text, List.mem_append, not_or]
    constructor
    · rintro ⟨⟨⟨-, -⟩, ref⟩, alt⟩
      exact ⟨ref, alt⟩
    · rintro ⟨ref, alt⟩
      exact ⟨⟨⟨chr_dots, pos_dots⟩, ref⟩, alt⟩
  constructor
  · intro alike
    refine ⟨fun same => (alike.mp same.symm).symm, ?_⟩
    rintro rfl
    have text_eq := alike.mpr rfl
    rw [replaced_text, eq_comm, map_replaceDot_eq_iff, dots] at text_eq
    exact text_eq
  · rintro ⟨apart, undotted⟩
    refine ⟨fun same => (apart same.symm).symm, ?_⟩
    rintro rfl
    rw [replaced_text, eq_comm, map_replaceDot_eq_iff, dots]
    exact undotted rfl

/-- The variant of chromosome 1, position 23, from A to T. -/
theorem hashedAlike_iff_same :
    let arguments := [('c', ['1']), ('p', ['2', '3']), ('r', ['A']), ('a', ['T']), ('f', [])]
    let line := ['1', '\t', '2', '3', '\t', '.', '\t', 'A', '\t', 'T']
    (uploadString line = some ['1', '2', '3', 'A', 'T'] ↔
      lineVariant line = some (typedVariant arguments 0)) := by
  intro arguments line
  have accepted : entryError arguments = false := by decide
  have queries : queryStrings arguments = some [['1', '2', '3', 'A', 'T']] := by decide
  have columns : lineVariant line = some ⟨['1'], ['2', '3'], ['A'], ['T']⟩ := by decide
  have same : typedVariant arguments 0 = ⟨['1'], ['2', '3'], ['A'], ['T']⟩ := by decide
  exact (hashedAlike_iff accepted (by decide) queries (by decide) columns).mpr
    ⟨fun _ => same, fun _ => by decide⟩

/-- Position 23 of chromosome 1 is taken for position 3 of chromosome 12. -/
theorem not_hashedAlike_position :
    let arguments := [('c', ['1']), ('p', ['2', '3']), ('r', ['A']), ('a', ['T']), ('f', [])]
    let line := ['1', '2', '\t', '3', '\t', '.', '\t', 'A', '\t', 'T']
    entryError arguments = false ∧ queryStrings arguments = some [['1', '2', '3', 'A', 'T']] ∧
      ¬ (uploadString line = some ['1', '2', '3', 'A', 'T'] ↔
        lineVariant line = some (typedVariant arguments 0)) := by
  decide

end Clashes

section Decision

/-- How the client gets its replies: a whole pack of entries, or a single entry of it. -/
inductive Mode where
  | sequential
  | pipeline

variable (padding_size data_hash_bytes : ℕ)

/-- `memcmp` of a slot with zeros. -/
def zeroSlot (response : ℕ → UInt8) (start : ℕ) : Bool :=
  (List.range data_hash_bytes).all fun j => response (start + j) = 0

/-- The bytes of the response are followed by whatever the memory holds behind it. -/
def checkContent (response : ℕ → UInt8) : Bool :=
  forLoop (padding_size * 3)
    (fun h check => if zeroSlot data_hash_bytes response (h * data_hash_bytes) then true else check)
    false

/-- The last loop of `searchQuery`, over the responses for all files and variants. -/
def searchQuery (responses : List (ℕ → UInt8)) : Bool :=
  responses.foldl (fun check response =>
    if checkContent padding_size data_hash_bytes response = false then false else check) true

/-- Where the entry at the given position begins in the response. -/
def entryStart (mode : Mode) (alpha pos : ℕ) : ℕ :=
  match mode with
  | .sequential => pos % alpha * (padding_size * data_hash_bytes)
  | .pipeline => 0

/-- The answer is true exactly if every queried entry has a slot that is zero. -/
def DecidesEntries (mode : Mode) (alpha : ℕ) (positions : List ℕ) : Prop :=
  ∀ responses : ℕ → ℕ → UInt8,
    searchQuery padding_size data_hash_bytes ((List.range positions.length).map responses) = true ↔
      ∀ (query : ℕ) (pos : ℕ), positions[query]? = some pos → ∃ slot < padding_size,
        zeroSlot data_hash_bytes (responses query)
          (entryStart padding_size data_hash_bytes mode alpha pos + slot * data_hash_bytes) = true

/-- The answer does not change with the bytes outside the queried entries. -/
def IgnoresRest (mode : Mode) (alpha : ℕ) (positions : List ℕ) : Prop :=
  ∀ left right : ℕ → ℕ → UInt8,
    (∀ (query : ℕ) (pos : ℕ), positions[query]? = some pos →
      ∀ j < padding_size * data_hash_bytes,
        left query (entryStart padding_size data_hash_bytes mode alpha pos + j) =
          right query (entryStart padding_size data_hash_bytes mode alpha pos + j)) →
    searchQuery padding_size data_hash_bytes ((List.range positions.length).map left) =
      searchQuery padding_size data_hash_bytes ((List.range positions.length).map right)

variable {padding_size data_hash_bytes}

theorem zeroSlot_iff {response : ℕ → UInt8} {start : ℕ} :
    zeroSlot data_hash_bytes response start = true ↔
      ∀ j < data_hash_bytes, response (start + j) = 0 := by
  simp [zeroSlot]

/-- The client looks at three times as many slots as an entry has, from the start of the response. -/
theorem checkContent_iff {response : ℕ → UInt8} :
    checkContent padding_size data_hash_bytes response = true ↔
      ∃ h < padding_size * 3,
        zeroSlot data_hash_bytes response (h * data_hash_bytes) = true := by
  rw [checkContent]
  induction padding_size * 3 with
  | zero => simp
  | succ count ih =>
      rw [forLoop_succ]
      split
      next zero => exact iff_of_true rfl ⟨count, Nat.lt_succ_self count, zero⟩
      next nonzero =>
        rw [ih]
        constructor
        · rintro ⟨h, h_lt, zero⟩
          exact ⟨h, h_lt.trans (Nat.lt_succ_self count), zero⟩
        · rintro ⟨h, h_lt, zero⟩
          rcases Nat.lt_succ_iff_lt_or_eq.mp h_lt with earlier | rfl
          · exact ⟨h, earlier, zero⟩
          · exact absurd zero nonzero

theorem searchQuery_iff {responses : List (ℕ → UInt8)} :
    searchQuery padding_size data_hash_bytes responses = true ↔
      ∀ response ∈ responses, checkContent padding_size data_hash_bytes response = true := by
  have from_any : ∀ check, responses.foldl (fun check response =>
      if checkContent padding_size data_hash_bytes response = false then false else check) check =
        (check && responses.all (checkContent padding_size data_hash_bytes)) := by
    induction responses with
    | nil => simp
    | cons response responses ih =>
        intro check
        rw [List.foldl_cons, ih, List.all_cons]
        cases checkContent padding_size data_hash_bytes response <;> simp
  rw [searchQuery, from_any, Bool.true_and, List.all_eq_true]

/-- A response whose entry is nowhere zero, and which is zero everywhere else. -/
def misleading (padding_size data_hash_bytes : ℕ) (mode : Mode) (alpha pos : ℕ) (j : ℕ) : UInt8 :=
  if entryStart padding_size data_hash_bytes mode alpha pos ≤ j ∧
    j < entryStart padding_size data_hash_bytes mode alpha pos + padding_size * data_hash_bytes
  then 1 else 0

theorem misleading_entry {mode : Mode} {alpha pos j : ℕ}
    (inside : j < padding_size * data_hash_bytes) :
    misleading padding_size data_hash_bytes mode alpha pos
      (entryStart padding_size data_hash_bytes mode alpha pos + j) = 1 :=
  if_pos ⟨Nat.le_add_right _ _, Nat.add_lt_add_left inside _⟩

/-- One of the slots the client looks at lies outside the entry. -/
theorem checkContent_misleading (padding_pos : 0 < padding_size) (mode : Mode) (alpha pos : ℕ) :
    checkContent padding_size data_hash_bytes
      (misleading padding_size data_hash_bytes mode alpha pos) = true := by
  rw [checkContent_iff]
  have slot_le : data_hash_bytes ≤ padding_size * data_hash_bytes :=
    Nat.le_mul_of_pos_left _ padding_pos
  have start_eq : entryStart padding_size data_hash_bytes mode alpha pos = 0 ∨
      padding_size * data_hash_bytes ≤ entryStart padding_size data_hash_bytes mode alpha pos := by
    cases mode with
    | pipeline => exact Or.inl rfl
    | sequential =>
        rcases Nat.eq_zero_or_pos (pos % alpha) with first | later
        · left
          rw [entryStart, first, Nat.zero_mul]
        · right
          exact Nat.le_mul_of_pos_left _ later
  rcases start_eq with first | later
  · refine ⟨padding_size, by omega, ?_⟩
    rw [zeroSlot_iff]
    intro j _
    rw [misleading, first, if_neg (by omega)]
  · refine ⟨0, by omega, ?_⟩
    rw [zeroSlot_iff]
    intro j j_lt
    rw [misleading, Nat.zero_mul, if_neg (by omega)]

/-- The answer is true for responses whose entries have no slot that is zero. -/
theorem searchQuery_misleading (padding_pos : 0 < padding_size) (mode : Mode) (alpha : ℕ)
    (positions : List ℕ) :
    searchQuery padding_size data_hash_bytes ((List.range positions.length).map fun query =>
      misleading padding_size data_hash_bytes mode alpha (positions.getD query 0)) = true := by
  rw [searchQuery_iff]
  intro response response_mem
  rcases List.mem_map.mp response_mem with ⟨query, _, rfl⟩
  exact checkContent_misleading padding_pos mode alpha _

theorem not_decidesEntries (padding_pos : 0 < padding_size) (bytes_pos : 0 < data_hash_bytes)
    (mode : Mode) (alpha : ℕ) {positions : List ℕ} (nonempty : positions ≠ []) :
    ¬ DecidesEntries padding_size data_hash_bytes mode alpha positions := by
  intro decides
  rcases List.exists_cons_of_ne_nil nonempty with ⟨pos, rest, rfl⟩
  rcases (decides _).mp (searchQuery_misleading padding_pos mode alpha (pos :: rest)) 0 pos rfl with
    ⟨slot, slot_lt, zero⟩
  have first := zeroSlot_iff.mp zero 0 bytes_pos
  have inside : slot * data_hash_bytes + 0 < padding_size * data_hash_bytes := by
    rw [Nat.add_zero]
    exact Nat.mul_lt_mul_of_pos_right slot_lt bytes_pos
  rw [Nat.add_assoc, List.getD_cons_zero, misleading_entry inside] at first
  exact absurd first (by decide)

theorem not_ignoresRest (padding_pos : 0 < padding_size) (bytes_pos : 0 < data_hash_bytes)
    (mode : Mode) (alpha : ℕ) {positions : List ℕ} (nonempty : positions ≠ []) :
    ¬ IgnoresRest padding_size data_hash_bytes mode alpha positions := by
  intro ignores
  have same := ignores (fun query => misleading padding_size data_hash_bytes mode alpha
    (positions.getD query 0)) (fun _ _ => 1) (by
    intro query pos here j j_lt
    rw [List.getD_eq_getElem?_getD, here, Option.getD_some]
    exact misleading_entry j_lt)
  rw [searchQuery_misleading padding_pos mode alpha positions, eq_comm, searchQuery_iff] at same
  have looked := checkContent_iff.mp (same (fun _ => 1) (by
    rw [List.mem_map]
    exact ⟨0, List.mem_range.mpr (List.length_pos_iff.mpr nonempty), rfl⟩))
  rcases looked with ⟨h, _, zero⟩
  exact absurd (zeroSlot_iff.mp zero 0 bytes_pos) (by decide)

/--
For no way of getting replies, no aggregation and no query does the answer say
whether the queried entries have a slot that is zero, and for none is it independent of
the bytes outside these entries.
-/
theorem searchQuery_never_decides (padding_pos : 0 < padding_size)
    (bytes_pos : 0 < data_hash_bytes) (mode : Mode) (alpha : ℕ) {positions : List ℕ}
    (nonempty : positions ≠ []) :
    ¬ DecidesEntries padding_size data_hash_bytes mode alpha positions ∧
      ¬ IgnoresRest padding_size data_hash_bytes mode alpha positions :=
  ⟨not_decidesEntries padding_pos bytes_pos mode alpha nonempty,
    not_ignoresRest padding_pos bytes_pos mode alpha nonempty⟩

/-- The constants of the program, with three entries in a pack. -/
theorem searchQuery_never_decides_packed :
    ¬ DecidesEntries 716 6 .sequential 3 [4] ∧ ¬ IgnoresRest 716 6 .sequential 3 [4] :=
  searchQuery_never_decides (by decide) (by decide) .sequential 3 (by decide)

/-- The answer for a pack whose first entry is zero, when the second entry is asked for. -/
theorem not_decidesEntries_packed : ¬ DecidesEntries 716 6 .sequential 3 [4] :=
  not_decidesEntries (by decide) (by decide) .sequential 3 (by decide)

end Decision

end Xpir.PIRClient
