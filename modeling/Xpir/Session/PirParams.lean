import Xpir.Foundations.ByteStream
import Xpir.Foundations.Loop

/-!
# Receiving and loading PIR parameters

The number of dimensions and their sizes reach the program from the peer of a session,
or from a file. They are stored in an array of `maxRecLvl` entries. A session writes an
additional one after the last dimension, also when it sends parameters that come from a
file.

No place compares the number of dimensions with the length of the array.
`staysInside_iff` says for which values each of them stays inside the array and uses no
number of dimensions out of range.
-/

namespace Xpir

/-- The length of the array of dimensions. -/
def maxRecLvl : ℕ := 10

/-- The parameters of a party, with the indices of the array that have been written. -/
structure RawPIRParameters where
  alpha : UInt32
  d : UInt32
  n : ℕ → UInt32
  written : List ℕ

namespace RawPIRParameters

def initial : RawPIRParameters where
  alpha := 0
  d := 0
  n := fun _ => 0
  written := []

variable (params : RawPIRParameters)

def setN (i : ℕ) (size : UInt32) : RawPIRParameters :=
  { params with n := Function.update params.n i size, written := params.written ++ [i] }

@[simp]
theorem setN_written (i : ℕ) (size : UInt32) :
    (params.setN i size).written = params.written ++ [i] := rfl

@[simp]
theorem setN_n (i : ℕ) (size : UInt32) :
    (params.setN i size).n = Function.update params.n i size := rfl

@[simp]
theorem setN_d (i : ℕ) (size : UInt32) : (params.setN i size).d = params.d := rfl

end RawPIRParameters

/-- The parameters while they are received; a read that fails ends the reception. -/
structure Reception where
  params : RawPIRParameters
  input : Option (List UInt8)

namespace Reception

def rcvD (state : Reception) : Reception :=
  match state.input.bind readInt with
  | some (d, rest) => { params := { state.params with d := d }, input := some rest }
  | none => { state with input := none }

def rcvAlpha (state : Reception) : Reception :=
  match state.input.bind readInt with
  | some (alpha, rest) => { params := { state.params with alpha := alpha }, input := some rest }
  | none => { state with input := none }

def rcvN (i : ℕ) (state : Reception) : Reception :=
  match state.input.bind readInt with
  | some (size, rest) => { params := state.params.setN i size, input := some rest }
  | none => { state with input := none }

/-- The number of dimensions, the aggregation, and the size of each dimension. -/
def rcvAll (input : List UInt8) : Reception :=
  let state := rcvAlpha (rcvD { params := .initial, input := some input })
  forLoop state.params.d.toNat rcvN state

end Reception

/-- The parameters after a call, and whether they are used from then on. -/
structure Outcome where
  params : RawPIRParameters
  used : Bool

namespace PIRSession

/-- A failed read throws, and the session ends without the parameters. -/
def rcvPirParams (input : List UInt8) : Outcome :=
  let state := Reception.rcvAll input
  match state.input with
  | some _ => { params := state.params.setN state.params.d.toNat 1, used := true }
  | none => { params := state.params, used := false }

/-- The bytes sent, and the parameters after the call. -/
def sendPirParams (params : RawPIRParameters) : List UInt8 × RawPIRParameters :=
  (writeInt params.d ++ writeInt params.alpha ++
      (List.range params.d.toNat).flatMap (fun i => writeInt (params.n i)),
    params.setN params.d.toNat 1)

end PIRSession

namespace PIRClientSimple

def rcvPirParams (input : List UInt8) : Outcome :=
  let state := Reception.rcvAll input
  { params := state.params, used := state.input.isSome }

end PIRClientSimple

/-! ## The parameter file -/

def isSpace (c : Char) : Bool := c = ' ' || 9 ≤ c.toNat && c.toNat ≤ 13

/-- The value of the digits in front. -/
def digitsValue (chars : List Char) : ℕ :=
  (chars.takeWhile Char.isDigit).foldl (fun value c => 10 * value + (c.toNat - '0'.toNat)) 0

def strtol (chars : List Char) : ℤ :=
  match chars.dropWhile isSpace with
  | '-' :: rest => max (-(digitsValue rest : ℤ)) (-2 ^ 63)
  | '+' :: rest => min (digitsValue rest : ℤ) (2 ^ 63 - 1)
  | rest => min (digitsValue rest : ℤ) (2 ^ 63 - 1)

/-- `atoi`, assigned to an `unsigned int`. -/
def atoi (chars : List Char) : UInt32 := UInt32.ofInt (strtol chars)

/-- A line, and what follows it. -/
def getline (file : List Char) : List Char × List Char :=
  (file.takeWhile (· ≠ '\n'), (file.dropWhile (· ≠ '\n')).tail)

namespace ServerService

/--
The number of dimensions, and the fields for their sizes. There is no result if the
first line has no second field, for which an exception is thrown, or is the last line.
-/
def parsePIRParameters (file : List Char) : Option (UInt32 × List (List Char)) :=
  ((getline file).1.splitOn ' ')[1]?.bind fun field =>
    if '\n' ∈ file then
      some (atoi field, ((getline (getline file).2).1.splitOn ' ').tail)
    else none

/-- The server exits if the parameters have not been loaded. -/
def readPIRParameters (file : List Char) : Outcome :=
  match parsePIRParameters file with
  | some (d, sizes) =>
      { params := forLoop (min d.toNat sizes.length)
          (fun i params => params.setN i (atoi (sizes.getD i [])))
          { RawPIRParameters.initial with d := d }
        used := decide (d.toNat ≤ sizes.length) }
  | none => { params := .initial, used := false }

/-- Parameters that have been loaded are sent at the start of a session. -/
def loadAndSend (file : List Char) : Outcome :=
  let loaded := readPIRParameters file
  if loaded.used then { loaded with params := (PIRSession.sendPirParams loaded.params).2 }
  else loaded

end ServerService

/--
Every index written is one of the array, and a number of dimensions out of range is not
used.
-/
structure StaysInside (d : UInt32) (outcome : Outcome) : Prop where
  inside : ∀ i ∈ outcome.params.written, i < maxRecLvl
  rejected : ¬ (1 ≤ d.toNat ∧ d.toNat ≤ maxRecLvl) → outcome.used = false

section Loops

theorem forLoop_setN_written (params : RawPIRParameters) (value : ℕ → UInt32) (count : ℕ) :
    (forLoop count (fun i params => params.setN i (value i)) params).written =
      params.written ++ List.range count := by
  induction count with
  | zero => simp
  | succ count ih =>
      rw [forLoop_succ, RawPIRParameters.setN_written, ih, List.range_succ, List.append_assoc]

theorem forLoop_setN_d (params : RawPIRParameters) (value : ℕ → UInt32) (count : ℕ) :
    (forLoop count (fun i params => params.setN i (value i)) params).d = params.d := by
  induction count with
  | zero => rfl
  | succ count ih => rw [forLoop_succ, RawPIRParameters.setN_d, ih]

/-- A size is written for each whole `int` that is left of the input. -/
theorem forLoop_rcvN (params : RawPIRParameters) (input : List UInt8) (count : ℕ) :
    let state := forLoop count Reception.rcvN { params := params, input := some input }
    state.params.d = params.d ∧
      state.params.written = params.written ++ List.range (min count (input.length / 4)) ∧
      (state.input = none ∧ input.length < 4 * count ∨
        ∃ rest, state.input = some rest ∧ input.length = rest.length + 4 * count) := by
  induction count with
  | zero => simp
  | succ count ih =>
      simp only [forLoop_succ] at ih ⊢
      generalize forLoop count Reception.rcvN { params := params, input := some input } = state
        at ih ⊢
      rcases ih with ⟨d_eq, written_eq, ⟨failed, short⟩ | ⟨rest, left, length_eq⟩⟩
      · have same : Reception.rcvN count state = state := by
          cases state
          subst failed
          rfl
        rw [same]
        refine ⟨d_eq, ?_, Or.inl ⟨failed, by omega⟩⟩
        rw [written_eq, (by omega : min (count + 1) (input.length / 4) =
          min count (input.length / 4))]
      · cases reads : readInt rest with
        | none =>
            have ends : rest.length < 4 := by
              rw [← not_le, ← readInt_isSome_iff, reads]
              simp
            rw [Reception.rcvN, left, Option.bind_some, reads]
            refine ⟨d_eq, ?_, Or.inl ⟨rfl, by omega⟩⟩
            rw [written_eq, (by omega : min (count + 1) (input.length / 4) =
              min count (input.length / 4))]
        | some read =>
            rcases read with ⟨size, after⟩
            have next := length_of_readInt reads
            rw [Reception.rcvN, left, Option.bind_some, reads]
            refine ⟨d_eq, ?_, Or.inr ⟨after, rfl, by omega⟩⟩
            rw [RawPIRParameters.setN_written, written_eq,
              (by omega : min count (input.length / 4) = count),
              (by omega : min (count + 1) (input.length / 4) = count + 1), List.range_succ,
              List.append_assoc]

/-- What is received in front of the sizes. -/
theorem rcvAll_eq (d alpha : UInt32) (sizes : List UInt8) :
    Reception.rcvAll (writeInt d ++ writeInt alpha ++ sizes) =
      forLoop d.toNat Reception.rcvN
        { params := { RawPIRParameters.initial with d := d, alpha := alpha }
          input := some sizes } := by
  rw [Reception.rcvAll, Reception.rcvD, Option.bind_some, List.append_assoc, readInt_writeInt,
    Reception.rcvAlpha, Option.bind_some, readInt_writeInt]

end Loops

section Places

/-- An index is written for each of a number of dimensions. -/
theorem forall_mem_range_lt_iff (count bound : ℕ) :
    (∀ i ∈ List.range count, i < bound) ↔ count ≤ bound := by
  constructor
  · intro inside
    by_contra beyond
    exact absurd (inside bound (List.mem_range.mpr (not_le.mp beyond))) (lt_irrefl bound)
  · intro le i i_mem
    exact (List.mem_range.mp i_mem).trans_le le

theorem session_staysInside_iff (d alpha : UInt32) (sizes : List UInt8) :
    StaysInside d (PIRSession.rcvPirParams (writeInt d ++ writeInt alpha ++ sizes)) ↔
      if 4 * d.toNat ≤ sizes.length then 1 ≤ d.toNat ∧ d.toNat < maxRecLvl
      else sizes.length / 4 ≤ maxRecLvl := by
  rcases forLoop_rcvN { RawPIRParameters.initial with d := d, alpha := alpha } sizes d.toNat with
    ⟨d_eq, written_eq, ⟨failed, short⟩ | ⟨rest, left, length_eq⟩⟩
  · have outcome : PIRSession.rcvPirParams (writeInt d ++ writeInt alpha ++ sizes) =
        { params := (Reception.rcvAll (writeInt d ++ writeInt alpha ++ sizes)).params
          used := false } := by
      rw [PIRSession.rcvPirParams, rcvAll_eq, failed]
    rw [if_neg (by omega), outcome, rcvAll_eq]
    have indices : (∀ i ∈ List.range (min d.toNat (sizes.length / 4)), i < maxRecLvl) ↔
        sizes.length / 4 ≤ maxRecLvl := by
      rw [forall_mem_range_lt_iff, (by omega : min d.toNat (sizes.length / 4) = sizes.length / 4)]
    constructor
    · intro stays
      have inside := stays.inside
      rw [written_eq] at inside
      exact indices.mp inside
    · intro few
      refine ⟨?_, fun _ => rfl⟩
      rw [written_eq]
      exact indices.mpr few
  · have outcome : PIRSession.rcvPirParams (writeInt d ++ writeInt alpha ++ sizes) =
        { params := (Reception.rcvAll (writeInt d ++ writeInt alpha ++ sizes)).params.setN
            d.toNat 1
          used := true } := by
      rw [PIRSession.rcvPirParams, rcvAll_eq, left, d_eq]
    rw [if_pos (by omega), outcome, rcvAll_eq]
    have written : ((forLoop d.toNat Reception.rcvN
        { params := { RawPIRParameters.initial with d := d, alpha := alpha }
          input := some sizes }).params.setN d.toNat 1).written = List.range (d.toNat + 1) := by
      rw [RawPIRParameters.setN_written, written_eq, (by omega : min d.toNat (sizes.length / 4) = d.toNat),
        List.range_succ]
      rfl
    constructor
    · rintro ⟨inside, rejected⟩
      rw [written, forall_mem_range_lt_iff] at inside
      refine ⟨?_, inside⟩
      by_contra zero
      exact absurd (rejected fun range => zero range.1) (by simp)
    · rintro ⟨positive, below⟩
      refine ⟨?_, fun outside => absurd ⟨positive, below.le⟩ outside⟩
      rw [written, forall_mem_range_lt_iff]
      exact below

theorem client_staysInside_iff (d alpha : UInt32) (sizes : List UInt8) :
    StaysInside d (PIRClientSimple.rcvPirParams (writeInt d ++ writeInt alpha ++ sizes)) ↔
      if 4 * d.toNat ≤ sizes.length then 1 ≤ d.toNat ∧ d.toNat ≤ maxRecLvl
      else sizes.length / 4 ≤ maxRecLvl := by
  rcases forLoop_rcvN { RawPIRParameters.initial with d := d, alpha := alpha } sizes d.toNat with
    ⟨_, written_eq, ⟨failed, short⟩ | ⟨rest, left, length_eq⟩⟩
  · rw [if_neg (by omega), PIRClientSimple.rcvPirParams, rcvAll_eq, failed]
    constructor
    · rintro ⟨inside, _⟩
      rw [written_eq] at inside
      rw [← (by omega : min d.toNat (sizes.length / 4) = sizes.length / 4)]
      exact (forall_mem_range_lt_iff _ _).mp inside
    · intro few
      refine ⟨?_, fun _ => rfl⟩
      rw [written_eq, (by omega : min d.toNat (sizes.length / 4) = sizes.length / 4)]
      exact (forall_mem_range_lt_iff _ _).mpr few
  · rw [if_pos (by omega), PIRClientSimple.rcvPirParams, rcvAll_eq, left]
    have all : min d.toNat (sizes.length / 4) = d.toNat := by omega
    constructor
    · rintro ⟨inside, rejected⟩
      rw [written_eq, all] at inside
      have below := (forall_mem_range_lt_iff _ _).mp inside
      refine ⟨?_, below⟩
      by_contra zero
      exact absurd (rejected fun range => zero range.1) (by simp)
    · intro range
      refine ⟨?_, fun outside => absurd range outside⟩
      rw [written_eq, all]
      exact (forall_mem_range_lt_iff _ _).mpr range.2

theorem file_staysInside_iff {file : List Char} {d : UInt32} {sizes : List (List Char)}
    (parses : ServerService.parsePIRParameters file = some (d, sizes)) :
    StaysInside d (ServerService.loadAndSend file) ↔
      if d.toNat ≤ sizes.length then 1 ≤ d.toNat ∧ d.toNat < maxRecLvl
      else sizes.length ≤ maxRecLvl := by
  have loaded : ServerService.readPIRParameters file =
      { params := forLoop (min d.toNat sizes.length)
          (fun i params => params.setN i (atoi (sizes.getD i [])))
          { RawPIRParameters.initial with d := d }
        used := decide (d.toNat ≤ sizes.length) } := by
    rw [ServerService.readPIRParameters, parses]
  split
  next accepted =>
    have written : (ServerService.loadAndSend file).params.written = List.range (d.toNat + 1) := by
      rw [ServerService.loadAndSend, loaded]
      simp only [accepted, decide_true, if_true, PIRSession.sendPirParams,
        RawPIRParameters.setN_written, forLoop_setN_written, forLoop_setN_d, min_eq_left]
      rw [List.range_succ]
      rfl
    have used : (ServerService.loadAndSend file).used = true := by
      rw [ServerService.loadAndSend, loaded]
      simp [accepted]
    constructor
    · rintro ⟨inside, rejected⟩
      rw [written, forall_mem_range_lt_iff] at inside
      refine ⟨?_, inside⟩
      by_contra zero
      rw [used] at rejected
      exact absurd (rejected fun range => zero range.1) (by simp)
    · rintro ⟨positive, below⟩
      refine ⟨?_, fun outside => absurd ⟨positive, below.le⟩ outside⟩
      rw [written, forall_mem_range_lt_iff]
      exact below
  next refused =>
    have outcome : ServerService.loadAndSend file = ServerService.readPIRParameters file := by
      rw [ServerService.loadAndSend, loaded]
      simp [refused]
    have written : (ServerService.loadAndSend file).params.written = List.range sizes.length := by
      rw [outcome, loaded]
      simp only [forLoop_setN_written]
      rw [min_eq_right (by omega)]
      rfl
    have used : (ServerService.loadAndSend file).used = false := by
      rw [outcome, loaded]
      simp [refused]
    constructor
    · rintro ⟨inside, _⟩
      rw [written] at inside
      exact (forall_mem_range_lt_iff _ _).mp inside
    · intro few
      refine ⟨?_, fun _ => used⟩
      rw [written]
      exact (forall_mem_range_lt_iff _ _).mpr few

end Places

end Xpir
