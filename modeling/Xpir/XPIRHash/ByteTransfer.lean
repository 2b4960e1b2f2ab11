import Mathlib.Algebra.Order.Ring.Int
import Mathlib.Data.List.Range
import Xpir.Foundations.Loop

/-!
# Transfers over a socket

This file contains the loops of `readXBytes` and `sendXBytes`, for every sequence of
results of `read` and `write`. A transfer records which byte of the buffer has been
exchanged with which byte of the stream, so that an exact transfer is the list of the
pairs `(0, 0), (1, 1), …`.

The number of bytes done is an `int` in both loops, which the comparison with the
length converts to a `uint64_t`. Reading keeps its results in an `unsigned int`: no
result is ever negative, so no error is reported, and an error is counted as `2 ^ 32 - 1`
bytes. Writing keeps them in an `int` and reports negative ones, but counts them as well.
-/

namespace Xpir.Socket

/-- What a call of `read` or `write` does. -/
inductive CallResult where
  /-- Transfer one byte more than this number, or as many as it may. -/
  | bytes (more : ℕ)
  | endOfStream
  | error
deriving DecidableEq

namespace CallResult

/-- The bytes transferred by a call that may transfer `count` of them. -/
def moved (count : ℕ) : CallResult → ℕ
  | bytes more => min (more + 1) (min count (2 ^ 63 - 1))
  | _ => 0

/-- The `ssize_t` that is returned. -/
def value (count : ℕ) (result : CallResult) : ℤ :=
  if result = error then -1 else result.moved count

end CallResult

/-- The variables of a transfer, and what has happened so far. -/
structure Transfer where
  /-- `bytesRead` or `bytesWrite`, an `int`. -/
  counter : ℤ
  calls : ℕ
  /-- Bytes of the buffer, as offsets from its address, with bytes of the stream. -/
  moved : List (ℤ × ℕ)
  /-- Some call has failed. -/
  failed : Bool
  /-- An error message has been printed. -/
  reported : Bool

/-- The value that an `int` is compared as with a `uint64_t`. -/
def asUInt64 (counter : ℤ) : ℕ :=
  (counter % 2 ^ 64).toNat

namespace Transfer

def start : Transfer where
  counter := 0
  calls := 0
  moved := []
  failed := false
  reported := false

/-- The condition of both loops. -/
def continues (x : ℕ) (transfer : Transfer) : Bool :=
  asUInt64 transfer.counter < x

/-- The bytes that a call is asked for. -/
def count (x : ℕ) (transfer : Transfer) : ℕ :=
  x - asUInt64 transfer.counter

/-- What a call changes besides the counter and the messages. -/
def afterCall (x : ℕ) (result : CallResult) (transfer : Transfer) : Transfer :=
  { transfer with
    calls := transfer.calls + 1
    moved := transfer.moved ++ (List.range (result.moved (transfer.count x))).map fun (j : ℕ) =>
      (transfer.counter + j, transfer.moved.length + j)
    failed := transfer.failed || result = .error }

/-- One round of `readXBytes`: `result` is an `unsigned int`. -/
def receiveRound (x : ℕ) (results : ℕ → CallResult) (transfer : Transfer) : Option Transfer :=
  let returned := results transfer.calls
  let result := returned.value (transfer.count x) % 2 ^ 32
  some { transfer.afterCall x returned with
    counter := Int.bmod (transfer.counter + result) (2 ^ 32)
    reported := transfer.reported || result < 0 }

/-- One round of `sendXBytes`: `result` is an `int`, and so is the sum, which may overflow. -/
def sendRound (x : ℕ) (results : ℕ → CallResult) (transfer : Transfer) : Option Transfer :=
  let returned := results transfer.calls
  let result := Int.bmod (returned.value (transfer.count x)) (2 ^ 32)
  let sum := transfer.counter + result
  if -2 ^ 31 ≤ sum ∧ sum < 2 ^ 31 then
    some { transfer.afterCall x returned with
      counter := sum
      reported := transfer.reported || result < 0 }
  else none

/-- The first bytes of the buffer, each with the same byte of the stream. -/
def exactPairs (count : ℕ) : List (ℤ × ℕ) :=
  (List.range count).map fun (j : ℕ) => ((j : ℤ), j)

/--
All bytes have been transferred, and no failure has been passed over; or an error has been
reported, and what has been transferred is the beginning of an exact transfer.
-/
def Honest (x : ℕ) (transfer : Transfer) : Prop :=
  (transfer.moved = exactPairs x ∧ transfer.failed = false) ∨
    (transfer.reported = true ∧ transfer.moved <+: exactPairs x)

end Transfer

open Transfer

/-- `readXBytes` ends, and what it leaves is honest. -/
def ReadsHonestly (x : ℕ) (results : ℕ → CallResult) : Prop :=
  EndsIn (Transfer.continues x) (receiveRound x results) (Honest x) start

/-- `sendXBytes` ends without an overflow, and what it leaves is honest. -/
def SendsHonestly (x : ℕ) (results : ℕ → CallResult) : Prop :=
  EndsIn (Transfer.continues x) (sendRound x results) (Honest x) start

/-! ## Conditions on the results -/

section Conditions

variable (x : ℕ) (results : ℕ → CallResult)

/-- The bytes done after some more calls, if the buffer is filled in order. -/
def progress (call bytes : ℕ) : ℕ → ℕ
  | 0 => bytes
  | calls + 1 =>
      progress (call + 1) (bytes + (results call).moved (x - bytes)) calls

/-- All bytes arrive before any error, and the counter can hold them, or is negative then. -/
def ReadCompletes (call bytes : ℕ) : Prop :=
  (x < 2 ^ 31 ∨ 2 ^ 31 ≤ x % 2 ^ 32) ∧
    ∃ calls, progress x results call bytes calls = x ∧
      ∀ i < calls, results (call + i) ≠ .error ∧ progress x results call bytes i < 2 ^ 31

/-- All bytes can be written before any error. -/
def SendCompletes (call bytes : ℕ) : Prop :=
  x < 2 ^ 31 ∧ ∃ calls, progress x results call bytes calls = x ∧
    ∀ i < calls, results (call + i) ≠ .error

theorem exists_progress_iff {P : ℕ → ℕ → Prop} {call bytes : ℕ} (bytes_ne : bytes ≠ x) :
    (∃ calls, progress x results call bytes calls = x ∧
      ∀ i < calls, P (call + i) (progress x results call bytes i)) ↔
    P call bytes ∧ ∃ calls,
      progress x results (call + 1) (bytes + (results call).moved (x - bytes)) calls = x ∧
        ∀ i < calls, P (call + 1 + i)
          (progress x results (call + 1) (bytes + (results call).moved (x - bytes)) i) := by
  constructor
  · rintro ⟨calls, ends, holds⟩
    cases calls with
    | zero => exact absurd ends bytes_ne
    | succ calls =>
        refine ⟨holds 0 (by omega), calls, ends, ?_⟩
        intro i i_lt
        have later := holds (i + 1) (by omega)
        rwa [show call + (i + 1) = call + 1 + i by omega] at later
  · rintro ⟨now, calls, ends, holds⟩
    refine ⟨calls + 1, ends, ?_⟩
    intro i i_lt
    cases i with
    | zero => exact now
    | succ i =>
        rw [show call + (i + 1) = call + 1 + i by omega]
        exact holds i (by omega)

/-- The errors among the results of some calls. -/
def errors (call : ℕ) : ℕ → ℕ
  | 0 => 0
  | calls + 1 => (if results call = .error then 1 else 0) + errors (call + 1) calls

/-- A given number of errors happens before any byte is transferred. -/
def FailsBeforeData (call number : ℕ) : Prop :=
  ∃ calls, (∀ i < calls, ∀ more, results (call + i) ≠ .bytes more) ∧
    errors results call calls = number

/-- The counter after a call that does not count what it transfers. -/
def brokenCounter (call bytes : ℕ) : ℤ :=
  bytes + Int.bmod ((results call).value (x - bytes)) (2 ^ 32)

/-- What has to follow a call that fails or writes too many bytes for an `int`. -/
def BreaksOff (call bytes : ℕ) : Prop :=
  bytes < x ∧ bytes < 2 ^ 31 ∧
    (results call = .error ∨ 2 ^ 31 ≤ (results call).moved (x - bytes)) ∧
    brokenCounter x results call bytes < 2 ^ 31 ∧
    x ≤ 2 ^ 64 + brokenCounter x results call bytes ∧
    FailsBeforeData results (call + 1) (brokenCounter x results call bytes + 1).toNat

/-- The first such call is reported and ends the transfer before anything else is written. -/
def SendBreaksOff (call bytes : ℕ) : Prop :=
  ∃ calls, (∀ i < calls, results (call + i) ≠ .error) ∧
    BreaksOff x results (call + calls) (progress x results call bytes calls)

end Conditions

/-! ## Single calls -/

theorem CallResult.moved_le (result : CallResult) (count : ℕ) : result.moved count ≤ count := by
  cases result <;> simp only [moved] <;> omega

theorem CallResult.moved_pos {count more : ℕ} (count_pos : 0 < count) :
    0 < (bytes more).moved count := by
  simp only [moved]
  omega

theorem CallResult.value_of_ne {result : CallResult} (succeeds : result ≠ .error) (count : ℕ) :
    result.value count = result.moved count := by
  rw [value, if_neg succeeds]

@[simp]
theorem CallResult.value_error (count : ℕ) : error.value count = -1 := if_pos rfl

theorem asUInt64_natCast {bytes : ℕ} (bytes_lt : bytes < 2 ^ 64) : asUInt64 bytes = bytes := by
  rw [asUInt64]
  omega

theorem asUInt64_of_neg {counter : ℤ} (counter_lt : counter < 0) (counter_ge : -2 ^ 31 ≤ counter) :
    (asUInt64 counter : ℤ) = 2 ^ 64 + counter := by
  rw [asUInt64]
  omega

@[simp]
theorem length_exactPairs (count : ℕ) : (exactPairs count).length = count := by
  simp [exactPairs]

theorem exactPairs_add (first second : ℕ) :
    exactPairs (first + second) = exactPairs first ++
      (List.range second).map fun (j : ℕ) => ((first : ℤ) + j, first + j) := by
  rw [exactPairs, List.range_add, List.map_append, List.map_map, exactPairs]
  rfl

theorem exactPairs_prefix {first second : ℕ} (first_le : first ≤ second) :
    exactPairs first <+: exactPairs second := by
  rw [← Nat.add_sub_of_le first_le, exactPairs_add]
  exact List.prefix_append _ _

theorem exactPairs_injective {first second : ℕ} (same : exactPairs first = exactPairs second) :
    first = second := by
  have lengths := congrArg List.length same
  simpa using lengths

/-- A byte from another place of the buffer is not the next one of an exact transfer. -/
theorem not_prefix_of_misplaced {x done number : ℕ} {counter : ℤ} (misplaced : counter ≠ done)
    (number_pos : 0 < number) :
    ¬ exactPairs done ++ (List.range number).map (fun (j : ℕ) => (counter + j, done + j)) <+:
      exactPairs x := by
  intro inside
  have next := inside.getElem (i := done) (by simp; omega)
  rw [List.getElem_append_right (by simp)] at next
  simp [exactPairs] at next
  exact misplaced next

/-! ## Transfers out of step -/

section OutOfStep

variable {x : ℕ} {transfer : Transfer}

theorem continues_iff :
    Transfer.continues x transfer = true ↔ asUInt64 transfer.counter < x :=
  decide_eq_true_iff

theorem count_pos (more : Transfer.continues x transfer = true) : 0 < transfer.count x := by
  rw [continues_iff] at more
  rw [Transfer.count]
  omega

theorem moved_afterCall_of_not_bytes {result : CallResult} (nothing : ∀ more, result ≠ .bytes more) :
    (transfer.afterCall x result).moved = transfer.moved := by
  cases result with
  | bytes more => exact absurd rfl (nothing more)
  | endOfStream => simp [Transfer.afterCall, CallResult.moved]
  | error => simp [Transfer.afterCall, CallResult.moved]

theorem not_prefix_afterCall (misaligned : ¬ transfer.moved <+: exactPairs x)
    (result : CallResult) : ¬ (transfer.afterCall x result).moved <+: exactPairs x :=
  fun inside => misaligned ((List.prefix_append _ _).trans inside)

/-- Any byte that is transferred with a wrong counter is misplaced. -/
theorem not_prefix_afterCall_bytes {done more : ℕ} (moved_eq : transfer.moved = exactPairs done)
    (misplaced : transfer.counter ≠ done) (continues : Transfer.continues x transfer = true) :
    ¬ (transfer.afterCall x (.bytes more)).moved <+: exactPairs x := by
  simp only [Transfer.afterCall, moved_eq, length_exactPairs]
  exact not_prefix_of_misplaced misplaced (CallResult.moved_pos (count_pos continues))

theorem not_honest_of_not_prefix (misaligned : ¬ transfer.moved <+: exactPairs x) :
    ¬ Honest x transfer := by
  rintro (⟨moved_eq, _⟩ | ⟨_, inside⟩)
  · exact misaligned (moved_eq ▸ List.prefix_rfl)
  · exact misaligned inside

end OutOfStep

/-! ## Exact progress -/

/-- A transfer without failures, with its counter. -/
def Transfer.reached (call bytes : ℕ) (counter : ℤ) : Transfer where
  counter := counter
  calls := call
  moved := exactPairs bytes
  failed := false
  reported := false

section Progress

variable {x call bytes : ℕ} {results : ℕ → CallResult} (x_lt : x < 2 ^ 64)

include x_lt

theorem continues_reached (bytes_le : bytes ≤ x) :
    Transfer.continues x (reached call bytes bytes) = true ↔ bytes < x := by
  simp [Transfer.continues, reached, asUInt64_natCast (show bytes < 2 ^ 64 by omega)]

theorem count_reached (bytes_le : bytes ≤ x) :
    (reached call bytes bytes).count x = x - bytes := by
  simp [Transfer.count, reached, asUInt64_natCast (show bytes < 2 ^ 64 by omega)]

/-- What a successful call leaves, apart from the counter. -/
theorem afterCall_reached (bytes_le : bytes ≤ x) {result : CallResult}
    (succeeds : result ≠ .error) (counter : ℤ) :
    { (reached call bytes bytes).afterCall x result with counter := counter, reported := false } =
      reached (call + 1) (bytes + result.moved (x - bytes)) counter := by
  simp only [Transfer.afterCall, count_reached x_lt bytes_le]
  simp [reached, exactPairs_add, succeeds]

theorem receiveRound_reached (bytes_le : bytes ≤ x) (succeeds : results call ≠ .error) :
    receiveRound x results (reached call bytes bytes) =
      some (reached (call + 1) (bytes + (results call).moved (x - bytes))
        (Int.bmod (bytes + (results call).moved (x - bytes) : ℕ) (2 ^ 32))) := by
  rw [← afterCall_reached x_lt bytes_le succeeds]
  have counted : Int.bmod ((bytes : ℤ) + ((results call).moved (x - bytes) : ℤ) % 2 ^ 32)
      (2 ^ 32) = Int.bmod (bytes + (results call).moved (x - bytes) : ℕ) (2 ^ 32) := by
    rw [Int.bmod_def, Int.bmod_def]
    omega
  have unsigned : ¬ ((results call).moved (x - bytes) : ℤ) % 2 ^ 32 < 0 := by omega
  simp only [receiveRound, count_reached x_lt bytes_le]
  simp only [reached, CallResult.value_of_ne succeeds, counted, unsigned, decide_false,
    Bool.or_false]

end Progress

/-! ## Reading -/

/-- An `unsigned int` is never negative. -/
theorem decide_unsigned_neg (value : ℤ) : decide (value % 2 ^ 32 < 0) = false :=
  decide_eq_false (by omega)

/-- A transfer that will not be honest any more, since nothing is ever reported. -/
def LostRead (x : ℕ) (transfer : Transfer) : Prop :=
  transfer.reported = false ∧ (transfer.failed = true ∨ ¬ transfer.moved <+: exactPairs x ∨
    (∃ done, transfer.moved = exactPairs done ∧ transfer.counter ≠ (done : ℕ) ∧
      -2 ^ 31 ≤ transfer.counter ∧ transfer.counter < 2 ^ 31 ∧
        Transfer.continues x transfer = true))

theorem LostRead.step {x : ℕ} {results : ℕ → CallResult} {transfer next : Transfer}
    (lost : LostRead x transfer) (continues : Transfer.continues x transfer = true)
    (steps : receiveRound x results transfer = some next) : LostRead x next := by
  rcases lost with ⟨unreported, lost⟩
  simp only [receiveRound, Option.some.injEq, decide_unsigned_neg, Bool.or_false] at steps
  subst steps
  refine ⟨unreported, ?_⟩
  rcases lost with failed | misaligned | ⟨done, moved_eq, misplaced, counter_ge, counter_lt, more⟩
  · left
    simp [Transfer.afterCall, failed]
  · right
    left
    exact not_prefix_afterCall misaligned _
  · cases returned : results transfer.calls with
    | bytes more =>
        right
        left
        exact not_prefix_afterCall_bytes moved_eq misplaced continues
    | endOfStream =>
        -- The same call is made again.
        have same : Int.bmod (transfer.counter + 0 % 2 ^ 32) (2 ^ 32) = transfer.counter := by
          rw [Int.bmod_def]
          omega
        have value_eq : CallResult.value (transfer.count x) .endOfStream = 0 := rfl
        right
        right
        refine ⟨done, ?_, ?_, ?_, ?_, ?_⟩
        · rw [← moved_eq]
          exact moved_afterCall_of_not_bytes (by simp)
        all_goals simp only [value_eq, same]
        · exact misplaced
        · exact counter_ge
        · exact counter_lt
        · simpa [Transfer.continues] using more
    | error =>
        left
        simp [Transfer.afterCall]

theorem LostRead.not_endsIn {x : ℕ} {results : ℕ → CallResult} {transfer : Transfer}
    (lost : LostRead x transfer) :
    ¬ EndsIn (Transfer.continues x) (receiveRound x results) (Honest x) transfer := by
  refine not_endsIn_of_invariant (LostRead x) (fun _ _ lost continues steps =>
    lost.step continues steps) ?_ lost
  rintro final ⟨unreported, lost⟩ stops honest
  rcases lost with failed | misaligned | ⟨_, _, _, _, _, more⟩
  · rcases honest with ⟨_, clean⟩ | ⟨reported, _⟩
    · exact absurd failed (by simp [clean])
    · exact absurd reported (by simp [unreported])
  · exact not_honest_of_not_prefix misaligned honest
  · exact absurd more (by simp [stops])

theorem lostRead_of_error {x call bytes : ℕ} {results : ℕ → CallResult}
    (fails : results call = .error) {next : Transfer}
    (steps : receiveRound x results (reached call bytes bytes) = some next) : LostRead x next := by
  simp only [receiveRound, Option.some.injEq, decide_unsigned_neg, Bool.or_false] at steps
  subst steps
  exact ⟨rfl, .inl (by simp [Transfer.afterCall, reached, fails])⟩

section Reading

variable {x call bytes : ℕ} {results : ℕ → CallResult}

theorem bmod_of_lt {done : ℕ} (done_lt : done < 2 ^ 31) : Int.bmod (done : ℕ) (2 ^ 32) = done := by
  rw [Int.bmod_def]
  omega

theorem readCompletes_done (width : x < 2 ^ 31 ∨ 2 ^ 31 ≤ x % 2 ^ 32) :
    ReadCompletes x results call x :=
  ⟨width, 0, rfl, by omega⟩

theorem readCompletes_iff (bytes_lt : bytes < x) (succeeds : results call ≠ .error)
    (fits : bytes < 2 ^ 31) : ReadCompletes x results call bytes ↔
      ReadCompletes x results (call + 1) (bytes + (results call).moved (x - bytes)) := by
  rw [ReadCompletes, exists_progress_iff x results bytes_lt.ne (P := fun call bytes =>
    results call ≠ .error ∧ bytes < 2 ^ 31), ReadCompletes]
  tauto

variable (x_lt : x < 2 ^ 64)

include x_lt

/-- From `2 ^ 31` bytes on, the counter is wrong: the loop stops, or goes on at another place. -/
theorem endsIn_reached_wrapped {done : ℕ} (done_ge : 2 ^ 31 ≤ done) (done_le : done ≤ x) :
    EndsIn (Transfer.continues x) (receiveRound x results) (Honest x)
      (reached call done (Int.bmod (done : ℕ) (2 ^ 32))) ↔ done = x ∧ 2 ^ 31 ≤ x % 2 ^ 32 := by
  have counter_cases : Int.bmod (done : ℕ) (2 ^ 32) = ((done % 2 ^ 32 : ℕ) : ℤ) ∧
        done % 2 ^ 32 < 2 ^ 31 ∨
      Int.bmod (done : ℕ) (2 ^ 32) = ((done % 2 ^ 32 : ℕ) : ℤ) - 2 ^ 32 ∧
        2 ^ 31 ≤ done % 2 ^ 32 := by
    rw [Int.bmod_def]
    omega
  generalize Int.bmod (done : ℕ) (2 ^ 32) = counter at counter_cases
  by_cases continues : Transfer.continues x (reached call done counter) = true
  · -- It goes on with a counter that is not the number of bytes done.
    have lost : LostRead x (reached call done counter) :=
      ⟨rfl, .inr (.inr ⟨done, rfl, by simp only [reached]; omega, by simp only [reached]; omega,
        by simp only [reached]; omega, continues⟩)⟩
    refine iff_of_false lost.not_endsIn ?_
    rintro ⟨rfl, large⟩
    rw [continues_iff] at continues
    simp only [reached] at continues
    have := @asUInt64_of_neg counter (by omega) (by omega)
    omega
  · rw [endsIn_iff_of_stops (by simpa using continues)]
    rw [continues_iff] at continues
    simp only [reached] at continues
    constructor
    · rintro (⟨moved_eq, _⟩ | ⟨reported, _⟩)
      · have done_eq := exactPairs_injective moved_eq
        refine ⟨done_eq, ?_⟩
        rcases counter_cases with ⟨counter_eq, small⟩ | ⟨_, large⟩
        · rw [counter_eq, asUInt64_natCast (by omega)] at continues
          omega
        · rwa [done_eq] at large
      · exact absurd reported (by simp [reached])
    · rintro ⟨rfl, _⟩
      exact .inl ⟨rfl, rfl⟩

/-- A successful call either keeps the transfer in step or makes its counter wrong. -/
theorem endsIn_read_step (bytes_lt : bytes < x) (succeeds : results call ≠ .error) :
    EndsIn (Transfer.continues x) (receiveRound x results) (Honest x) (reached call bytes bytes) ↔
      EndsIn (Transfer.continues x) (receiveRound x results) (Honest x)
        (reached (call + 1) (bytes + (results call).moved (x - bytes))
          (Int.bmod (bytes + (results call).moved (x - bytes) : ℕ) (2 ^ 32))) :=
  endsIn_iff_of_step ((continues_reached x_lt bytes_lt.le).mpr bytes_lt)
    (receiveRound_reached x_lt bytes_lt.le succeeds)

theorem readCompletes_of_endsIn {transfer : Transfer}
    (ends : EndsIn (Transfer.continues x) (receiveRound x results) (Honest x) transfer) :
    ∀ call bytes, bytes ≤ x → bytes < 2 ^ 31 → transfer = reached call bytes bytes →
      ReadCompletes x results call bytes := by
  refine ends.backwards (motive := fun transfer => ∀ call bytes, bytes ≤ x → bytes < 2 ^ 31 →
    transfer = reached call bytes bytes → ReadCompletes x results call bytes) ?_ ?_
  · rintro transfer stops _ call bytes bytes_le bytes_lt rfl
    have bytes_eq : bytes = x := by
      by_contra unequal
      have continues := (@continues_reached x call bytes x_lt bytes_le).mpr (by omega)
      exact absurd continues (by simp [stops])
    rw [bytes_eq] at bytes_lt ⊢
    exact readCompletes_done (.inl bytes_lt)
  · rintro transfer next continues steps ends ih call bytes bytes_le bytes_lt rfl
    have before := (continues_reached x_lt bytes_le).mp continues
    by_cases fails : results call = .error
    · exact absurd ends (lostRead_of_error fails steps).not_endsIn
    · rw [receiveRound_reached x_lt bytes_le fails, Option.some.injEq] at steps
      subst steps
      have moved_le := (results call).moved_le (x - bytes)
      rw [readCompletes_iff before fails bytes_lt]
      by_cases fits : bytes + (results call).moved (x - bytes) < 2 ^ 31
      · exact ih _ _ (by omega) fits (by rw [bmod_of_lt fits])
      · rcases (endsIn_reached_wrapped x_lt (by omega) (by omega)).mp ends with ⟨done, large⟩
        rw [done]
        exact readCompletes_done (.inr large)

theorem endsIn_of_readCompletes (bytes_le : bytes ≤ x) (bytes_lt : bytes < 2 ^ 31)
    (completes : ReadCompletes x results call bytes) :
    EndsIn (Transfer.continues x) (receiveRound x results) (Honest x) (reached call bytes bytes) := by
  rcases completes with ⟨width, calls, ends, clean⟩
  induction calls generalizing call bytes with
  | zero =>
      rw [progress] at ends
      subst ends
      rw [endsIn_iff_of_stops (by simpa using (continues_reached x_lt le_rfl).not.mpr (by omega))]
      exact .inl ⟨rfl, rfl⟩
  | succ calls ih =>
      rcases Nat.lt_or_ge bytes x with before | after
      · have succeeds : results call ≠ .error := (clean 0 (by omega)).1
        rw [endsIn_read_step x_lt before succeeds]
        have moved_le := (results call).moved_le (x - bytes)
        by_cases fits : bytes + (results call).moved (x - bytes) < 2 ^ 31
        · rw [bmod_of_lt fits]
          apply ih (by omega) fits ends
          intro i i_lt
          have later := clean (i + 1) (by omega)
          rwa [show call + (i + 1) = call + 1 + i by omega] at later
        · rw [endsIn_reached_wrapped x_lt (by omega) (by omega)]
          cases calls with
          | zero =>
              rw [progress, progress] at ends
              exact ⟨ends, by omega⟩
          | succ calls => exact absurd (clean 1 (by omega)).2 fits
      · obtain rfl : bytes = x := by omega
        rw [endsIn_iff_of_stops (by simpa using (continues_reached x_lt le_rfl).not.mpr (by omega))]
        exact .inl ⟨rfl, rfl⟩

theorem readsHonestly_iff : ReadsHonestly x results ↔ ReadCompletes x results 0 0 := by
  have start_eq : start = reached 0 0 (0 : ℕ) := rfl
  rw [ReadsHonestly, start_eq]
  constructor
  · intro ends
    exact readCompletes_of_endsIn x_lt ends 0 0 (by omega) (by omega) rfl
  · exact endsIn_of_readCompletes x_lt (by omega) (by omega)

end Reading

/-! ## Writing -/

section FailuresFirst

variable {results : ℕ → CallResult} {call number : ℕ}

theorem failsBeforeData_zero : FailsBeforeData results call 0 := ⟨0, by omega, rfl⟩

theorem FailsBeforeData.after_endOfStream (nothing : results call = .endOfStream)
    (fails : FailsBeforeData results (call + 1) number) : FailsBeforeData results call number := by
  rcases fails with ⟨calls, noData, counted⟩
  refine ⟨calls + 1, ?_, by simpa [errors, nothing] using counted⟩
  intro i i_lt
  cases i with
  | zero => simp [nothing]
  | succ i =>
      rw [show call + (i + 1) = call + 1 + i by omega]
      exact noData i (by omega)

theorem FailsBeforeData.after_error (failure : results call = .error)
    (fails : FailsBeforeData results (call + 1) number) :
    FailsBeforeData results call (number + 1) := by
  rcases fails with ⟨calls, noData, counted⟩
  refine ⟨calls + 1, ?_, by simp [errors, failure, counted, Nat.add_comm]⟩
  intro i i_lt
  cases i with
  | zero => simp [failure]
  | succ i =>
      rw [show call + (i + 1) = call + 1 + i by omega]
      exact noData i (by omega)

end FailuresFirst

/-- The counter is behind the bytes done; it is negative only after a reported error. -/
structure OutOfStep (x call done : ℕ) (transfer : Transfer) : Prop where
  calls_eq : transfer.calls = call
  moved_eq : transfer.moved = exactPairs done
  done_le : done ≤ x
  behind : transfer.counter < done
  counter_ge : -2 ^ 31 ≤ transfer.counter
  counter_lt : transfer.counter < 2 ^ 31
  reported : transfer.counter < 0 → transfer.reported = true

namespace OutOfStep

variable {x call done : ℕ} {results : ℕ → CallResult} {transfer next : Transfer}

theorem endOfStream (outOfStep : OutOfStep x call done transfer)
    (returned : results call = .endOfStream) : ∃ next,
      sendRound x results transfer = some next ∧ OutOfStep x (call + 1) done next ∧
        next.counter = transfer.counter := by
  have value_eq : CallResult.value (transfer.count x) .endOfStream = 0 := rfl
  have counter_ge := outOfStep.counter_ge
  have counter_lt := outOfStep.counter_lt
  simp only [sendRound, outOfStep.calls_eq, returned, value_eq, Int.zero_bmod, add_zero]
  rw [if_pos ⟨counter_ge, counter_lt⟩]
  refine ⟨_, rfl, ?_, rfl⟩
  constructor
  · simp [Transfer.afterCall, outOfStep.calls_eq]
  · rw [← outOfStep.moved_eq]
    exact moved_afterCall_of_not_bytes (by simp)
  · exact outOfStep.done_le
  · exact outOfStep.behind
  · exact counter_ge
  · exact counter_lt
  · intro negative
    simp [outOfStep.reported negative]

theorem error (outOfStep : OutOfStep x call done transfer) (returned : results call = .error)
    (room : -2 ^ 31 < transfer.counter) : ∃ next,
      sendRound x results transfer = some next ∧ OutOfStep x (call + 1) done next ∧
        next.counter = transfer.counter - 1 := by
  have minus_one : Int.bmod (-1) (2 ^ 32) = -1 := by decide
  have behind := outOfStep.behind
  have counter_lt := outOfStep.counter_lt
  simp only [sendRound, outOfStep.calls_eq, returned, CallResult.value_error, minus_one]
  rw [if_pos (by omega)]
  refine ⟨_, rfl, ?_, rfl⟩
  constructor
  · simp [Transfer.afterCall, outOfStep.calls_eq]
  · rw [← outOfStep.moved_eq]
    exact moved_afterCall_of_not_bytes (by simp)
  · exact outOfStep.done_le
  · simp only
    omega
  · simp only
    omega
  · simp only
    omega
  · simp

theorem bytes {more : ℕ} (outOfStep : OutOfStep x call done transfer)
    (continues : Transfer.continues x transfer = true) (returned : results call = .bytes more)
    (steps : sendRound x results transfer = some next) : ¬ next.moved <+: exactPairs x := by
  simp only [sendRound, outOfStep.calls_eq, returned] at steps
  split at steps
  · rw [Option.some.injEq] at steps
    subst steps
    exact not_prefix_afterCall_bytes outOfStep.moved_eq outOfStep.behind.ne continues
  · exact absurd steps (by simp)

theorem continues_of_nonneg (outOfStep : OutOfStep x call done transfer)
    (nonnegative : 0 ≤ transfer.counter) : Transfer.continues x transfer = true := by
  have behind := outOfStep.behind
  have done_le := outOfStep.done_le
  have counter_lt := outOfStep.counter_lt
  rw [continues_iff, asUInt64]
  omega

theorem continues_iff_of_neg (outOfStep : OutOfStep x call done transfer)
    (negative : transfer.counter < 0) :
    Transfer.continues x transfer = true ↔ 2 ^ 64 + transfer.counter < x := by
  have value := asUInt64_of_neg negative outOfStep.counter_ge
  rw [continues_iff]
  omega

end OutOfStep

/-- Bytes have been misplaced, or the counter is negative and still below the length. -/
def LostSend (x : ℕ) (transfer : Transfer) : Prop :=
  ¬ transfer.moved <+: exactPairs x ∨ ∃ call done, OutOfStep x call done transfer ∧
    transfer.counter < 0 ∧ 2 ^ 64 + transfer.counter < x

theorem LostSend.step {x : ℕ} {results : ℕ → CallResult} {transfer next : Transfer}
    (lost : LostSend x transfer) (continues : Transfer.continues x transfer = true)
    (steps : sendRound x results transfer = some next) : LostSend x next := by
  rcases lost with misaligned | ⟨call, done, outOfStep, negative, below⟩
  · left
    simp only [sendRound] at steps
    split at steps
    · rw [Option.some.injEq] at steps
      subst steps
      exact not_prefix_afterCall misaligned _
    · exact absurd steps (by simp)
  · cases returned : results call with
    | bytes more => exact .inl (outOfStep.bytes continues returned steps)
    | endOfStream =>
        rcases outOfStep.endOfStream returned with ⟨after, steps', outOfStep', counter_eq⟩
        rw [steps, Option.some.injEq] at steps'
        subst steps'
        exact .inr ⟨call + 1, done, outOfStep', by rwa [counter_eq], by rwa [counter_eq]⟩
    | error =>
        by_cases room : -2 ^ 31 < transfer.counter
        · rcases outOfStep.error returned room with ⟨after, steps', outOfStep', counter_eq⟩
          rw [steps, Option.some.injEq] at steps'
          subst steps'
          exact .inr ⟨call + 1, done, outOfStep', by omega, by omega⟩
        · have minus_one : Int.bmod (-1) (2 ^ 32) = -1 := by decide
          simp only [sendRound, outOfStep.calls_eq, returned, CallResult.value_error,
            minus_one] at steps
          rw [if_neg (by omega)] at steps
          exact absurd steps (by simp)

theorem LostSend.not_endsIn {x : ℕ} {results : ℕ → CallResult} {transfer : Transfer}
    (lost : LostSend x transfer) :
    ¬ EndsIn (Transfer.continues x) (sendRound x results) (Honest x) transfer := by
  refine not_endsIn_of_invariant (LostSend x) (fun _ _ lost continues steps =>
    lost.step continues steps) ?_ lost
  rintro final (misaligned | ⟨call, done, outOfStep, negative, below⟩) stops honest
  · exact not_honest_of_not_prefix misaligned honest
  · exact absurd ((outOfStep.continues_iff_of_neg negative).mpr below) (by simp [stops])

section OutOfStep

variable {x : ℕ} {results : ℕ → CallResult} {transfer : Transfer}

/-- A transfer out of step ends honestly if errors bring its counter below zero first. -/
theorem failsBeforeData_of_endsIn (x_lt : x < 2 ^ 64)
    (ends : EndsIn (Transfer.continues x) (sendRound x results) (Honest x) transfer) :
    ∀ call done, OutOfStep x call done transfer → x ≤ 2 ^ 64 + transfer.counter ∧
      FailsBeforeData results call (transfer.counter + 1).toNat := by
  refine ends.backwards (motive := fun transfer => ∀ call done, OutOfStep x call done transfer →
    x ≤ 2 ^ 64 + transfer.counter ∧
      FailsBeforeData results call (transfer.counter + 1).toNat) ?_ ?_
  · intro transfer stops _ call done outOfStep
    rcases lt_or_ge transfer.counter 0 with negative | nonnegative
    · have above := (outOfStep.continues_iff_of_neg negative).not.mp (by simp [stops])
      rw [show (transfer.counter + 1).toNat = 0 by omega]
      exact ⟨by omega, failsBeforeData_zero⟩
    · exact absurd (outOfStep.continues_of_nonneg nonnegative) (by simp [stops])
  · intro transfer next continues steps ends ih call done outOfStep
    rcases lt_or_ge transfer.counter 0 with negative | nonnegative
    · have lost : LostSend x transfer := .inr ⟨call, done, outOfStep, negative,
        (outOfStep.continues_iff_of_neg negative).mp continues⟩
      exact absurd ends (lost.step continues steps).not_endsIn
    · refine ⟨by omega, ?_⟩
      cases returned : results call with
      | bytes more =>
          have lost : LostSend x next := .inl (outOfStep.bytes continues returned steps)
          exact absurd ends lost.not_endsIn
      | endOfStream =>
          rcases outOfStep.endOfStream returned with ⟨after, steps', outOfStep', counter_eq⟩
          rw [steps, Option.some.injEq] at steps'
          subst steps'
          rw [← counter_eq]
          exact (ih _ _ outOfStep').2.after_endOfStream returned
      | error =>
          rcases outOfStep.error returned (by omega) with ⟨after, steps', outOfStep', counter_eq⟩
          rw [steps, Option.some.injEq] at steps'
          subst steps'
          rw [show (transfer.counter + 1).toNat = (next.counter + 1).toNat + 1 by omega]
          exact (ih _ _ outOfStep').2.after_error returned

theorem endsIn_of_failsBeforeData {call done : ℕ} (x_lt : x < 2 ^ 64) (outOfStep : OutOfStep x call done transfer)
    (above : x ≤ 2 ^ 64 + transfer.counter)
    (fails : FailsBeforeData results call (transfer.counter + 1).toNat) :
    EndsIn (Transfer.continues x) (sendRound x results) (Honest x) transfer := by
  have stopped : ∀ {call : ℕ} {transfer : Transfer}, OutOfStep x call done transfer →
      x ≤ 2 ^ 64 + transfer.counter → transfer.counter < 0 →
        EndsIn (Transfer.continues x) (sendRound x results) (Honest x) transfer := by
    intro call transfer outOfStep above negative
    have stops := (outOfStep.continues_iff_of_neg negative).not.mpr (by omega)
    rw [endsIn_iff_of_stops (by simpa using stops)]
    refine .inr ⟨outOfStep.reported negative, ?_⟩
    rw [outOfStep.moved_eq]
    exact exactPairs_prefix outOfStep.done_le
  rcases fails with ⟨calls, noData, counted⟩
  induction calls generalizing call transfer with
  | zero =>
      rw [errors] at counted
      exact stopped outOfStep above (by omega)
  | succ calls ih =>
      rcases lt_or_ge transfer.counter 0 with negative | nonnegative
      · exact stopped outOfStep above negative
      · have continues := outOfStep.continues_of_nonneg nonnegative
        have done_le := outOfStep.done_le
        have later : ∀ i < calls, ∀ more, results (call + 1 + i) ≠ .bytes more := by
          intro i i_lt
          rw [show call + 1 + i = call + (i + 1) by omega]
          exact noData (i + 1) (by omega)
        cases returned : results call with
        | bytes more => exact absurd returned (noData 0 (by omega) more)
        | endOfStream =>
            rcases outOfStep.endOfStream returned with ⟨next, steps, outOfStep', counter_eq⟩
            rw [endsIn_iff_of_step continues steps]
            apply ih outOfStep' (by rwa [counter_eq]) later
            rw [counter_eq, ← counted]
            simp [errors, returned]
        | error =>
            rcases outOfStep.error returned (by omega) with ⟨next, steps, outOfStep', counter_eq⟩
            rw [endsIn_iff_of_step continues steps]
            apply ih outOfStep' (by omega) later
            simp only [errors, returned, if_true] at counted
            omega

end OutOfStep

section Writing

variable {x call bytes : ℕ} {results : ℕ → CallResult}

theorem sendRound_of_fits {transfer : Transfer} {sum : ℤ}
    (sum_eq : transfer.counter + Int.bmod ((results transfer.calls).value (transfer.count x))
      (2 ^ 32) = sum) (fits : -2 ^ 31 ≤ sum ∧ sum < 2 ^ 31) :
    sendRound x results transfer = some { transfer.afterCall x (results transfer.calls) with
      counter := sum
      reported := transfer.reported ||
        Int.bmod ((results transfer.calls).value (transfer.count x)) (2 ^ 32) < 0 } := by
  subst sum_eq
  exact if_pos fits

theorem sendRound_of_overflows {transfer : Transfer} {sum : ℤ}
    (sum_eq : transfer.counter + Int.bmod ((results transfer.calls).value (transfer.count x))
      (2 ^ 32) = sum) (large : 2 ^ 31 ≤ sum) : sendRound x results transfer = none := by
  subst sum_eq
  exact if_neg (by omega)

theorem le_progress (calls : ℕ) : bytes ≤ progress x results call bytes calls := by
  induction calls generalizing call bytes with
  | zero => exact le_rfl
  | succ calls ih => exact (Nat.le_add_right _ _).trans ih

theorem sendCompletes_iff (bytes_lt : bytes < x) (succeeds : results call ≠ .error) :
    SendCompletes x results call bytes ↔
      SendCompletes x results (call + 1) (bytes + (results call).moved (x - bytes)) := by
  rw [SendCompletes, exists_progress_iff x results bytes_lt.ne
    (P := fun call _ => results call ≠ .error), SendCompletes]
  tauto

theorem SendBreaksOff.before (succeeds : results call ≠ .error)
    (breaksOff : SendBreaksOff x results (call + 1)
      (bytes + (results call).moved (x - bytes))) : SendBreaksOff x results call bytes := by
  rcases breaksOff with ⟨calls, clean, breaks⟩
  refine ⟨calls + 1, ?_, ?_⟩
  · intro i i_lt
    cases i with
    | zero => exact succeeds
    | succ i =>
        rw [show call + (i + 1) = call + 1 + i by omega]
        exact clean i (by omega)
  · rwa [show call + (calls + 1) = call + 1 + calls by omega]

variable (x_lt : x < 2 ^ 64)

include x_lt

theorem sendRound_reached (bytes_le : bytes ≤ x) (succeeds : results call ≠ .error)
    (fits : bytes + (results call).moved (x - bytes) < 2 ^ 31) :
    sendRound x results (reached call bytes bytes) =
      some (reached (call + 1) (bytes + (results call).moved (x - bytes))
        (bytes + (results call).moved (x - bytes) : ℕ)) := by
  rw [← afterCall_reached x_lt bytes_le succeeds]
  have exact_value : Int.bmod ((results call).moved (x - bytes) : ℕ) (2 ^ 32) =
      (results call).moved (x - bytes) := bmod_of_lt (by omega)
  have positive : ¬ (((results call).moved (x - bytes) : ℕ) : ℤ) < 0 := by omega
  simp only [sendRound, count_reached x_lt bytes_le]
  simp only [reached, CallResult.value_of_ne succeeds, exact_value, positive, decide_false,
    Bool.or_false]
  rw [if_pos (by omega)]
  push_cast
  rfl

theorem sendRound_overflows (bytes_le : bytes ≤ x) (succeeds : results call ≠ .error)
    (small : (results call).moved (x - bytes) < 2 ^ 31)
    (large : 2 ^ 31 ≤ bytes + (results call).moved (x - bytes)) :
    sendRound x results (reached call bytes bytes) = none := by
  have exact_value : Int.bmod ((results call).moved (x - bytes) : ℕ) (2 ^ 32) =
      (results call).moved (x - bytes) := bmod_of_lt small
  simp only [sendRound, count_reached x_lt bytes_le]
  simp only [reached, CallResult.value_of_ne succeeds, exact_value]
  rw [if_neg (by omega)]

/-- An error, or a result that is no `int`, leaves the counter behind. -/
theorem sendRound_breaks (bytes_lt : bytes < x)
    (breaks : results call = .error ∨ 2 ^ 31 ≤ (results call).moved (x - bytes)) :
    (brokenCounter x results call bytes < 2 ^ 31 → ∃ next,
      sendRound x results (reached call bytes bytes) = some next ∧
        OutOfStep x (call + 1) (bytes + (results call).moved (x - bytes)) next ∧
          next.counter = brokenCounter x results call bytes) ∧
    (2 ^ 31 ≤ brokenCounter x results call bytes →
      sendRound x results (reached call bytes bytes) = none) := by
  have moved_le := (results call).moved_le (x - bytes)
  have below : Int.bmod ((results call).value (x - bytes)) (2 ^ 32) <
      (results call).moved (x - bytes) := by
    rcases breaks with fails | large
    · have minus_one : Int.bmod (-1) (2 ^ 32) = -1 := by decide
      rw [fails, CallResult.value_error, minus_one]
      omega
    · have succeeds : results call ≠ .error := by
        intro fails
        rw [fails] at large
        simp [CallResult.moved] at large
      rw [CallResult.value_of_ne succeeds, Int.bmod_def]
      omega
  have counter_ge : -2 ^ 31 ≤ Int.bmod ((results call).value (x - bytes)) (2 ^ 32) := by
    rw [Int.bmod_def]
    omega
  have counted := @count_reached x call bytes x_lt bytes_lt.le
  have sum_eq : (reached call bytes bytes).counter +
      Int.bmod ((results (reached call bytes bytes).calls).value
        ((reached call bytes bytes).count x)) (2 ^ 32) = brokenCounter x results call bytes := by
    rw [counted]
    rfl
  have counter_eq : brokenCounter x results call bytes =
    bytes + Int.bmod ((results call).value (x - bytes)) (2 ^ 32) := rfl
  constructor
  · intro fits
    refine ⟨_, sendRound_of_fits sum_eq ⟨by omega, fits⟩, ?_, rfl⟩
    constructor
    · rfl
    · simp only [Transfer.afterCall, counted]
      simp only [reached, exactPairs_add, length_exactPairs]
    · omega
    · simp only
      push_cast
      omega
    · simp only
      omega
    · exact fits
    · intro negative
      simp only at negative
      have negative' : Int.bmod ((results call).value (x - bytes)) (2 ^ 32) < 0 := by omega
      simp only [counted]
      exact decide_eq_true negative'
  · exact sendRound_of_overflows sum_eq

theorem sends_of_endsIn {transfer : Transfer}
    (ends : EndsIn (Transfer.continues x) (sendRound x results) (Honest x) transfer) :
    ∀ call bytes, bytes ≤ x → bytes < 2 ^ 31 → transfer = reached call bytes bytes →
      SendCompletes x results call bytes ∨ SendBreaksOff x results call bytes := by
  refine ends.backwards (motive := fun transfer => ∀ call bytes, bytes ≤ x → bytes < 2 ^ 31 →
    transfer = reached call bytes bytes →
      SendCompletes x results call bytes ∨ SendBreaksOff x results call bytes) ?_ ?_
  · rintro transfer stops _ call bytes bytes_le bytes_lt rfl
    have bytes_eq : bytes = x := by
      by_contra unequal
      have continues := (@continues_reached x call bytes x_lt bytes_le).mpr (by omega)
      exact absurd continues (by simp [stops])
    rw [bytes_eq] at bytes_lt
    exact .inl ⟨bytes_lt, 0, bytes_eq, by omega⟩
  · rintro transfer next continues steps ends ih call bytes bytes_le bytes_lt rfl
    have before := (continues_reached x_lt bytes_le).mp continues
    have moved_le := (results call).moved_le (x - bytes)
    by_cases breaks : results call = .error ∨ 2 ^ 31 ≤ (results call).moved (x - bytes)
    · right
      rcases sendRound_breaks x_lt before breaks with ⟨goesOn, overflows⟩
      rcases lt_or_ge (brokenCounter x results call bytes) (2 ^ 31) with fits | large
      · rcases goesOn fits with ⟨after, steps', outOfStep, counter_eq⟩
        rw [steps, Option.some.injEq] at steps'
        subst steps'
        rcases failsBeforeData_of_endsIn x_lt ends _ _ outOfStep with ⟨above, fails⟩
        rw [counter_eq] at above fails
        exact ⟨0, by omega, before, bytes_lt, breaks, fits, above, fails⟩
      · rw [overflows large] at steps
        exact absurd steps (by simp)
    · rw [not_or, not_le] at breaks
      rcases breaks with ⟨succeeds, small⟩
      rcases lt_or_ge (bytes + (results call).moved (x - bytes)) (2 ^ 31) with fits | large
      · rw [sendRound_reached x_lt bytes_le succeeds fits, Option.some.injEq] at steps
        rcases ih _ _ (by omega) fits steps.symm with completes | breaksOff
        · exact .inl ((sendCompletes_iff before succeeds).mpr completes)
        · exact .inr (breaksOff.before succeeds)
      · rw [sendRound_overflows x_lt bytes_le succeeds small large] at steps
        exact absurd steps (by simp)

theorem endsIn_of_sendCompletes (bytes_le : bytes ≤ x)
    (completes : SendCompletes x results call bytes) :
    EndsIn (Transfer.continues x) (sendRound x results) (Honest x) (reached call bytes bytes) := by
  rcases completes with ⟨width, calls, ends, clean⟩
  induction calls generalizing call bytes with
  | zero =>
      rw [progress] at ends
      subst ends
      rw [endsIn_iff_of_stops (by simpa using (continues_reached x_lt le_rfl).not.mpr (by omega))]
      exact .inl ⟨rfl, rfl⟩
  | succ calls ih =>
      rcases Nat.lt_or_ge bytes x with before | after
      · have succeeds : results call ≠ .error := clean 0 (by omega)
        have moved_le := (results call).moved_le (x - bytes)
        rw [endsIn_iff_of_step ((continues_reached x_lt bytes_le).mpr before)
          (sendRound_reached x_lt bytes_le succeeds (by omega))]
        apply ih (by omega) ends
        intro i i_lt
        have later := clean (i + 1) (by omega)
        rwa [show call + (i + 1) = call + 1 + i by omega] at later
      · obtain rfl : bytes = x := by omega
        rw [endsIn_iff_of_stops (by simpa using (continues_reached x_lt le_rfl).not.mpr (by omega))]
        exact .inl ⟨rfl, rfl⟩

theorem endsIn_of_sendBreaksOff (bytes_le : bytes ≤ x)
    (breaksOff : SendBreaksOff x results call bytes) :
    EndsIn (Transfer.continues x) (sendRound x results) (Honest x) (reached call bytes bytes) := by
  rcases breaksOff with ⟨calls, clean, breaks⟩
  induction calls generalizing call bytes with
  | zero =>
      rw [progress, Nat.add_zero] at breaks
      rcases breaks with ⟨before, _, breaks, fits, above, fails⟩
      rcases (sendRound_breaks x_lt before breaks).1 fits with ⟨next, steps, outOfStep, counter_eq⟩
      rw [endsIn_iff_of_step ((continues_reached x_lt before.le).mpr before) steps]
      apply endsIn_of_failsBeforeData x_lt outOfStep
      · rwa [counter_eq]
      · rwa [counter_eq]
  | succ calls ih =>
      have succeeds : results call ≠ .error := clean 0 (by omega)
      have moved_le := (results call).moved_le (x - bytes)
      have advanced : bytes + (results call).moved (x - bytes) ≤
        progress x results call bytes (calls + 1) := le_progress calls
      rcases breaks with ⟨below, inside, rest⟩
      rw [endsIn_iff_of_step ((continues_reached x_lt bytes_le).mpr (by omega))
        (sendRound_reached x_lt bytes_le succeeds (by omega))]
      apply ih (by omega)
      · intro i i_lt
        have later := clean (i + 1) (by omega)
        rwa [show call + (i + 1) = call + 1 + i by omega] at later
      · rw [show call + (calls + 1) = call + 1 + calls by omega] at rest
        exact ⟨below, inside, rest⟩

theorem sendsHonestly_iff : SendsHonestly x results ↔
    SendCompletes x results 0 0 ∨ SendBreaksOff x results 0 0 := by
  have start_eq : start = reached 0 0 (0 : ℕ) := rfl
  rw [SendsHonestly, start_eq]
  constructor
  · intro ends
    exact sends_of_endsIn x_lt ends 0 0 (by omega) (by omega) rfl
  · rintro (completes | breaksOff)
    · exact endsIn_of_sendCompletes x_lt (by omega) completes
    · exact endsIn_of_sendBreaksOff x_lt (by omega) breaksOff

end Writing

/-- When the two loops transfer exactly, or report that they do not. -/
theorem transfersHonestly_iff (x : UInt64) (results : ℕ → CallResult) :
    (ReadsHonestly x.toNat results ↔ ReadCompletes x.toNat results 0 0) ∧
    (SendsHonestly x.toNat results ↔
      SendCompletes x.toNat results 0 0 ∨ SendBreaksOff x.toNat results 0 0) :=
  ⟨readsHonestly_iff x.toNat_lt, sendsHonestly_iff x.toNat_lt⟩

/-- An error of the first read is passed over. -/
theorem not_readsHonestly_error : ¬ ReadsHonestly 1 (fun _ => .error) := by
  rw [readsHonestly_iff (by decide)]
  rintro ⟨_, calls, ends, clean⟩
  cases calls with
  | zero => exact absurd ends (by decide)
  | succ calls => exact absurd rfl (clean 0 (by omega)).1

end Xpir.Socket
