import Mathlib.Data.List.TakeDrop
import Mathlib.Logic.Relation
import Xpir.Foundations.ByteStream

/-!
# Conversations of two parties

Two parties exchange blocks of bytes over a connection that keeps the order in each
direction. Each party is a process that writes and reads until it is finished or has
failed. A write never waits, a read waits until enough bytes have arrived, and the steps
of the two parties may be taken in any order.

The order does not matter: the steps have the diamond property. So it is enough to follow
the two parties in lockstep, where each write is read at once. `Exchange.settles_iff` and
`Fails.not_settles` turn what is known of the lockstep into statements about all orders.
-/

namespace Xpir

open Relation

/-- A party of a conversation; what it does depends on the bytes it has read. -/
inductive Process (Result : Type) where
  | finished (result : Result)
  | failed
  | write (bytes : List UInt8) (rest : Process Result)
  | read (size : ℕ) (rest : List UInt8 → Process Result)

namespace Process

variable {Result Next : Type}

def bind : Process Result → (Result → Process Next) → Process Next
  | finished result, next => next result
  | failed, _ => failed
  | write bytes rest, next => write bytes (rest.bind next)
  | read size rest, next => read size fun bytes => (rest bytes).bind next

instance : Monad Process where
  pure := finished
  bind := bind

/-- Nothing is written for an empty block. -/
def send (bytes : List UInt8) : Process Unit :=
  if bytes = [] then pure () else write bytes (pure ())

def receive (size : ℕ) : Process (List UInt8) :=
  if size = 0 then pure [] else read size pure

def ofOption : Option Result → Process Result
  | some result => pure result
  | none => failed

/-- What a party gets that has all of its input from the start, and what is left of it. -/
def runOn : Process Result → List UInt8 → Option (Result × List UInt8)
  | finished result, input => some (result, input)
  | failed, _ => none
  | write _ rest, input => rest.runOn input
  | read size rest, input => (readBytes size input).bind fun taken => (rest taken.1).runOn taken.2

theorem runOn_bind (process : Process Result) (next : Result → Process Next)
    (input : List UInt8) :
    (process >>= next).runOn input =
      (process.runOn input).bind fun reached => (next reached.1).runOn reached.2 := by
  induction process generalizing input with
  | finished result => rfl
  | failed => rfl
  | write bytes rest ih => exact ih input
  | read size rest ih =>
      change (readBytes size input).bind (fun taken => (rest taken.1 >>= next).runOn taken.2) = _
      rw [runOn, Option.bind_assoc]
      exact congrArg _ (funext fun taken => ih taken.1 taken.2)

theorem runOn_foldlM {Index : Type} (round : Result → Index → Process Result)
    (indices : List Index) (result : Result) (input : List UInt8) :
    (indices.foldlM round result).runOn input =
      indices.foldlM (fun reached index => (round reached.1 index).runOn reached.2)
        (result, input) := by
  induction indices generalizing result input with
  | nil => rfl
  | cons index rest ih =>
      rw [List.foldlM_cons, runOn_bind, List.foldlM_cons]
      exact congrArg _ (funext fun reached => ih reached.1 reached.2)

end Process

/-- One direction of the connection, with the blocks written to it and read from it. -/
structure Channel where
  bytes : List UInt8
  written : List (List UInt8)
  consumed : List (List UInt8)

namespace Channel

def empty : Channel := ⟨[], [], []⟩

variable (channel : Channel)

def put (block : List UInt8) : Channel :=
  { channel with bytes := channel.bytes ++ block, written := channel.written ++ [block] }

def take (size : ℕ) : Channel :=
  { channel with
    bytes := channel.bytes.drop size
    consumed := channel.consumed ++ [channel.bytes.take size] }

/-- The blocks read are the blocks written, and nothing is left. -/
structure Balanced : Prop where
  bytes_eq : channel.bytes = []
  consumed_eq : channel.consumed = channel.written

variable {channel}

theorem balanced_empty : empty.Balanced := ⟨rfl, rfl⟩

theorem take_put (block : List UInt8) {size : ℕ} (arrived : size ≤ channel.bytes.length) :
    (channel.put block).take size = (channel.take size).put block := by
  simp only [put, take, List.drop_append_of_le_length arrived,
    List.take_append_of_le_length arrived]

theorem take_bytes_put (block : List UInt8) {size : ℕ} (arrived : size ≤ channel.bytes.length) :
    (channel.put block).bytes.take size = channel.bytes.take size :=
  List.take_append_of_le_length arrived

theorem Balanced.take_put (balanced : channel.Balanced) (block : List UInt8) :
    ((channel.put block).take block.length).Balanced := by
  constructor
  · simp [Channel.take, put, balanced.bytes_eq]
  · simp [Channel.take, put, balanced.bytes_eq, balanced.consumed_eq]

theorem Balanced.bytes_put (balanced : channel.Balanced) (block : List UInt8) :
    (channel.put block).bytes = block := by
  rw [put, balanced.bytes_eq, List.nil_append]

end Channel

/-- A step of one party, with the channels to and from the other. -/
inductive Move {Result : Type} :
    Process Result → Channel → Channel → Process Result → Channel → Channel → Prop
  | write {bytes : List UInt8} {rest : Process Result} {outgoing incoming : Channel} :
      Move (.write bytes rest) outgoing incoming rest (outgoing.put bytes) incoming
  | read {size : ℕ} {rest : List UInt8 → Process Result} {outgoing incoming : Channel}
      (arrived : size ≤ incoming.bytes.length) :
      Move (.read size rest) outgoing incoming
        (rest (incoming.bytes.take size)) outgoing (incoming.take size)

/-- The two parties, and the two directions of the connection. -/
structure Conversation (Left Right : Type) where
  left : Process Left
  right : Process Right
  toRight : Channel
  toLeft : Channel

section Steps

variable {Left Right : Type}

namespace Conversation

def start (left : Process Left) (right : Process Right) : Conversation Left Right :=
  ⟨left, right, .empty, .empty⟩

inductive Step : Conversation Left Right → Conversation Left Right → Prop
  | left {left left' : Process Left} {right : Process Right}
      {toRight toRight' toLeft toLeft' : Channel}
      (move : Move left toRight toLeft left' toRight' toLeft') :
      Step ⟨left, right, toRight, toLeft⟩ ⟨left', right, toRight', toLeft'⟩
  | right {left : Process Left} {right right' : Process Right}
      {toRight toRight' toLeft toLeft' : Channel}
      (move : Move right toLeft toRight right' toLeft' toRight') :
      Step ⟨left, right, toRight, toLeft⟩ ⟨left, right', toRight', toLeft'⟩

def Reach : Conversation Left Right → Conversation Left Right → Prop := ReflTransGen Step

end Conversation

open Conversation

/--
Whatever steps have been taken, the two parties can go on to finish, with results that
belong together, and all blocks are read as they have been written.
-/
def Settles (left : Process Left) (right : Process Right) (agree : Left → Right → Prop) : Prop :=
  ∀ reached, Reach (start left right) reached →
    ∃ leftResult rightResult toRight toLeft,
      Reach reached ⟨.finished leftResult, .finished rightResult, toRight, toLeft⟩ ∧
      toRight.Balanced ∧ toLeft.Balanced ∧ agree leftResult rightResult

theorem Move.deterministic {Result : Type} {process first second : Process Result}
    {outgoing incoming outgoing₁ incoming₁ outgoing₂ incoming₂ : Channel}
    (move₁ : Move process outgoing incoming first outgoing₁ incoming₁)
    (move₂ : Move process outgoing incoming second outgoing₂ incoming₂) :
    first = second ∧ outgoing₁ = outgoing₂ ∧ incoming₁ = incoming₂ := by
  cases move₁ with
  | write =>
      cases move₂
      exact ⟨rfl, rfl, rfl⟩
  | read =>
      cases move₂
      exact ⟨rfl, rfl, rfl⟩

/-- What one party does leaves the other the step it had. -/
theorem Move.commute {left left' : Process Left} {right right' : Process Right}
    {toRight toLeft toRight₁ toLeft₁ toRight₂ toLeft₂ : Channel}
    (leftMove : Move left toRight toLeft left' toRight₁ toLeft₁)
    (rightMove : Move right toLeft toRight right' toLeft₂ toRight₂) :
    ∃ toRight₃ toLeft₃, Move left toRight₂ toLeft₂ left' toRight₃ toLeft₃ ∧
      Move right toLeft₁ toRight₁ right' toLeft₃ toRight₃ := by
  cases leftMove with
  | write =>
      cases rightMove with
      | write => exact ⟨_, _, .write, .write⟩
      | @read size rest _ _ arrived =>
          refine ⟨_, _, .write, ?_⟩
          rw [← Channel.take_put _ arrived, ← Channel.take_bytes_put _ arrived]
          exact .read (Nat.le_trans arrived (by simp [Channel.put]))
  | @read size rest _ _ arrived =>
      cases rightMove with
      | write =>
          refine ⟨_, _, ?_, .write⟩
          rw [← Channel.take_put _ arrived, ← Channel.take_bytes_put _ arrived]
          exact .read (Nat.le_trans arrived (by simp [Channel.put]))
      | read arrived' => exact ⟨_, _, .read arrived, .read arrived'⟩

namespace Conversation

theorem Step.diamond {conversation first second : Conversation Left Right}
    (step₁ : Step conversation first) (step₂ : Step conversation second) :
    first = second ∨ ∃ joined, Step first joined ∧ Step second joined := by
  cases step₁ with
  | left move₁ =>
      cases step₂ with
      | left move₂ =>
          obtain ⟨rfl, rfl, rfl⟩ := move₁.deterministic move₂
          exact Or.inl rfl
      | right move₂ =>
          obtain ⟨_, _, moved₁, moved₂⟩ := move₁.commute move₂
          exact Or.inr ⟨_, .right moved₂, .left moved₁⟩
  | right move₁ =>
      cases step₂ with
      | left move₂ =>
          obtain ⟨_, _, moved₂, moved₁⟩ := move₂.commute move₁
          exact Or.inr ⟨_, .left moved₂, .right moved₁⟩
      | right move₂ =>
          obtain ⟨rfl, rfl, rfl⟩ := move₁.deterministic move₂
          exact Or.inl rfl

theorem Reach.confluent {conversation first second : Conversation Left Right}
    (reach₁ : Reach conversation first) (reach₂ : Reach conversation second) :
    Join Reach first second := by
  refine church_rosser ?_ reach₁ reach₂
  intro _ _ _ step₁ step₂
  rcases step₁.diamond step₂ with rfl | ⟨joined, joins₁, joins₂⟩
  · exact ⟨_, .refl, .refl⟩
  · exact ⟨joined, .single joins₁, .single joins₂⟩

/-- Two parties that are both finished have come to the end. -/
theorem Reach.eq_of_finished {leftResult : Left} {rightResult : Right}
    {toRight toLeft : Channel} {reached : Conversation Left Right}
    (reach : Reach ⟨.finished leftResult, .finished rightResult, toRight, toLeft⟩ reached) :
    reached = ⟨.finished leftResult, .finished rightResult, toRight, toLeft⟩ := by
  induction reach with
  | refl => rfl
  | tail _ step ih =>
      subst ih
      cases step with
      | left move => cases move
      | right move => cases move

/-- A party that has failed goes no further. -/
theorem Reach.right_failed {conversation reached : Conversation Left Right}
    (reach : Reach conversation reached) (failed : conversation.right = .failed) :
    reached.right = .failed := by
  induction reach with
  | refl => exact failed
  | tail _ step ih =>
      cases step with
      | left => exact ih
      | right move =>
          subst ih
          cases move

end Conversation

/-! ## Lockstep -/

/-- Each write of a party is what the other reads next, and both finish. -/
inductive Exchange : Process Left → Process Right → Left → Right → Prop
  | finished {leftResult : Left} {rightResult : Right} :
      Exchange (.finished leftResult) (.finished rightResult) leftResult rightResult
  | toRight {bytes : List UInt8} {left : Process Left} {right : List UInt8 → Process Right}
      {leftResult : Left} {rightResult : Right}
      (rest : Exchange left (right bytes) leftResult rightResult) :
      Exchange (.write bytes left) (.read bytes.length right) leftResult rightResult
  | toLeft {bytes : List UInt8} {left : List UInt8 → Process Left} {right : Process Right}
      {leftResult : Left} {rightResult : Right}
      (rest : Exchange (left bytes) right leftResult rightResult) :
      Exchange (.read bytes.length left) (.write bytes right) leftResult rightResult

/-- In lockstep, the party on the right fails. -/
inductive Fails : Process Left → Process Right → Prop
  | failed {left : Process Left} : Fails left .failed
  | toRight {bytes : List UInt8} {left : Process Left} {right : List UInt8 → Process Right}
      (rest : Fails left (right bytes)) : Fails (.write bytes left) (.read bytes.length right)
  | toLeft {bytes : List UInt8} {left : List UInt8 → Process Left} {right : Process Right}
      (rest : Fails (left bytes) right) : Fails (.read bytes.length left) (.write bytes right)

/-- A block that one party writes and the other reads. -/
theorem Channel.Balanced.reach_toRight {toRight toLeft : Channel} (balanced : toRight.Balanced)
    (bytes : List UInt8) (left : Process Left) (right : List UInt8 → Process Right) :
    Reach ⟨.write bytes left, .read bytes.length right, toRight, toLeft⟩
      ⟨left, right bytes, (toRight.put bytes).take bytes.length, toLeft⟩ := by
  have arrives := balanced.bytes_put bytes
  have reads : @Step Left _ ⟨left, .read bytes.length right, toRight.put bytes, toLeft⟩
      ⟨left, right ((toRight.put bytes).bytes.take bytes.length),
        (toRight.put bytes).take bytes.length, toLeft⟩ := .right (.read (by simp [arrives]))
  rw [arrives, List.take_length] at reads
  exact .tail (.single (.left .write)) reads

theorem Channel.Balanced.reach_toLeft {toRight toLeft : Channel} (balanced : toLeft.Balanced)
    (bytes : List UInt8) (left : List UInt8 → Process Left) (right : Process Right) :
    Reach ⟨.read bytes.length left, .write bytes right, toRight, toLeft⟩
      ⟨left bytes, right, toRight, (toLeft.put bytes).take bytes.length⟩ := by
  have arrives := balanced.bytes_put bytes
  have reads : @Step _ Right ⟨.read bytes.length left, right, toRight, toLeft.put bytes⟩
      ⟨left ((toLeft.put bytes).bytes.take bytes.length), right, toRight,
        (toLeft.put bytes).take bytes.length⟩ := .left (.read (by simp [arrives]))
  rw [arrives, List.take_length] at reads
  exact .tail (.single (.right .write)) reads

theorem Fails.bind {left : Process Left} {right : Process Right} {Left' Right' : Type}
    (fails : Fails left right) {nextLeft : Left → Process Left'}
    {nextRight : Right → Process Right'} :
    Fails (left >>= nextLeft) (right >>= nextRight) := by
  induction fails with
  | failed => exact .failed
  | toRight _ ih => exact .toRight ih
  | toLeft _ ih => exact .toLeft ih

namespace Exchange

variable {left : Process Left} {right : Process Right}
variable {leftResult : Left} {rightResult : Right}

theorem reach (exchange : Exchange left right leftResult rightResult) {toRight toLeft : Channel}
    (balancedRight : toRight.Balanced) (balancedLeft : toLeft.Balanced) :
    ∃ toRight' toLeft', Reach ⟨left, right, toRight, toLeft⟩
        ⟨.finished leftResult, .finished rightResult, toRight', toLeft'⟩ ∧
      toRight'.Balanced ∧ toLeft'.Balanced := by
  induction exchange generalizing toRight toLeft with
  | finished => exact ⟨_, _, .refl, balancedRight, balancedLeft⟩
  | toRight _ ih =>
      rcases ih (balancedRight.take_put _) balancedLeft with ⟨_, _, reaches, balanced⟩
      exact ⟨_, _, (balancedRight.reach_toRight _ _ _).trans reaches, balanced⟩
  | toLeft _ ih =>
      rcases ih balancedRight (balancedLeft.take_put _) with ⟨_, _, reaches, balanced⟩
      exact ⟨_, _, (balancedLeft.reach_toLeft _ _ _).trans reaches, balanced⟩

/-- What the two parties come to in lockstep is what they come to in any order. -/
theorem settles_iff (exchange : Exchange left right leftResult rightResult)
    {agree : Left → Right → Prop} :
    Settles left right agree ↔ agree leftResult rightResult := by
  rcases exchange.reach Channel.balanced_empty Channel.balanced_empty with
    ⟨toRight, toLeft, reaches, balancedRight, balancedLeft⟩
  constructor
  · intro settles
    rcases settles _ reaches with ⟨_, _, _, _, more, _, _, agreement⟩
    have same := Reach.eq_of_finished more
    simp only [Conversation.mk.injEq, Process.finished.injEq] at same
    rwa [same.1, same.2.1] at agreement
  · intro agreement reached reach
    rcases Reach.confluent reach reaches with ⟨joined, joins, ends⟩
    rw [Reach.eq_of_finished ends] at joins
    exact ⟨_, _, _, _, joins, balancedRight, balancedLeft, agreement⟩

variable {Left' Right' : Type}

theorem bind (exchange : Exchange left right leftResult rightResult)
    {nextLeft : Left → Process Left'} {nextRight : Right → Process Right'}
    {leftResult' : Left'} {rightResult' : Right'}
    (next : Exchange (nextLeft leftResult) (nextRight rightResult) leftResult' rightResult') :
    Exchange (left >>= nextLeft) (right >>= nextRight) leftResult' rightResult' := by
  induction exchange with
  | finished => exact next
  | toRight _ ih => exact .toRight (ih next)
  | toLeft _ ih => exact .toLeft (ih next)

theorem bind_fails (exchange : Exchange left right leftResult rightResult)
    {nextLeft : Left → Process Left'} {nextRight : Right → Process Right'}
    (next : Fails (nextLeft leftResult) (nextRight rightResult)) :
    Fails (left >>= nextLeft) (right >>= nextRight) := by
  induction exchange with
  | finished => exact next
  | toRight _ ih => exact .toRight (ih next)
  | toLeft _ ih => exact .toLeft (ih next)

theorem send_receive (bytes : List UInt8) :
    Exchange (Process.send bytes) (Process.receive bytes.length) () bytes := by
  rw [Process.send, Process.receive]
  by_cases empty : bytes = []
  · subst empty
    exact .finished
  · rw [if_neg empty, if_neg (by simpa using empty)]
    exact .toRight .finished

theorem receive_send (bytes : List UInt8) :
    Exchange (Process.receive bytes.length) (Process.send bytes) bytes () := by
  rw [Process.send, Process.receive]
  by_cases empty : bytes = []
  · subst empty
    exact .finished
  · rw [if_neg empty, if_neg (by simpa using empty)]
    exact .toLeft .finished

theorem symm (exchange : Exchange left right leftResult rightResult) :
    Exchange right left rightResult leftResult := by
  induction exchange with
  | finished => exact .finished
  | toRight _ ih => exact .toLeft ih
  | toLeft _ ih => exact .toRight ih

/-- The party on the right goes on alone. -/
theorem bind_right (exchange : Exchange left right leftResult rightResult)
    {next : Right → Process Right'} {rightResult' : Right'}
    (ends : next rightResult = .finished rightResult') :
    Exchange left (right >>= next) leftResult rightResult' := by
  induction exchange with
  | finished =>
      change Exchange _ (next _) _ _
      rw [ends]
      exact .finished
  | toRight _ ih => exact .toRight (ih ends)
  | toLeft _ ih => exact .toLeft (ih ends)

theorem bind_right_fails (exchange : Exchange left right leftResult rightResult)
    {next : Right → Process Right'} (fails : next rightResult = .failed) :
    Fails left (right >>= next) := by
  induction exchange with
  | finished =>
      change Fails _ (next _)
      rw [fails]
      exact .failed
  | toRight _ ih => exact .toRight (ih fails)
  | toLeft _ ih => exact .toLeft (ih fails)

/-- Two loops over the same list, with an invariant about what is left of it. -/
theorem foldlM {Index : Type} (leftRound : Left → Index → Process Left)
    (rightRound : Right → Index → Process Right) (inv : List Index → Left → Right → Prop)
    (round : ∀ index rest left right, inv (index :: rest) left right →
      ∃ left' right', Exchange (leftRound left index) (rightRound right index) left' right' ∧
        inv rest left' right')
    (indices : List Index) (left : Left) (right : Right) (holds : inv indices left right) :
    ∃ left' right', Exchange (indices.foldlM leftRound left) (indices.foldlM rightRound right)
      left' right' ∧ inv [] left' right' := by
  induction indices generalizing left right with
  | nil => exact ⟨left, right, .finished, holds⟩
  | cons index rest ih =>
      rcases round index rest left right holds with ⟨left', right', exchange, holds'⟩
      rcases ih left' right' holds' with ⟨left'', right'', exchanges, ends⟩
      exact ⟨left'', right'', exchange.bind exchanges, ends⟩

/-- Two loops of which a round fails, as the invariant cannot hold at the end. -/
theorem foldlM_fails {Index : Type} (leftRound : Left → Index → Process Left)
    (rightRound : Right → Index → Process Right) (inv : List Index → Left → Right → Prop)
    (round : ∀ index rest left right, inv (index :: rest) left right →
      (∃ left' right', Exchange (leftRound left index) (rightRound right index) left' right' ∧
        inv rest left' right') ∨ Fails (leftRound left index) (rightRound right index))
    (never : ∀ left right, ¬ inv [] left right)
    (indices : List Index) (left : Left) (right : Right) (holds : inv indices left right) :
    Fails (indices.foldlM leftRound left) (indices.foldlM rightRound right) := by
  induction indices generalizing left right with
  | nil => exact absurd holds (never left right)
  | cons index rest ih =>
      rcases round index rest left right holds with ⟨left', right', exchange, holds'⟩ | fails
      · exact exchange.bind_fails (ih left' right' holds')
      · exact fails.bind

end Exchange

namespace Fails

variable {left : Process Left} {right : Process Right}

theorem reach (fails : Fails left right) {toRight toLeft : Channel}
    (balancedRight : toRight.Balanced) (balancedLeft : toLeft.Balanced) :
    ∃ reached, Reach ⟨left, right, toRight, toLeft⟩ reached ∧ reached.right = .failed := by
  induction fails generalizing toRight toLeft with
  | failed => exact ⟨_, .refl, rfl⟩
  | toRight _ ih =>
      rcases ih (balancedRight.take_put _) balancedLeft with ⟨_, reaches, failed⟩
      exact ⟨_, (balancedRight.reach_toRight _ _ _).trans reaches, failed⟩
  | toLeft _ ih =>
      rcases ih balancedRight (balancedLeft.take_put _) with ⟨_, reaches, failed⟩
      exact ⟨_, (balancedLeft.reach_toLeft _ _ _).trans reaches, failed⟩

theorem not_settles (fails : Fails left right) (agree : Left → Right → Prop) :
    ¬ Settles left right agree := by
  intro settles
  rcases fails.reach Channel.balanced_empty Channel.balanced_empty with
    ⟨reached, reaches, failed⟩
  rcases settles reached reaches with ⟨_, _, _, _, more, _⟩
  exact absurd (Reach.right_failed more failed) (by simp)

end Fails

end Steps

end Xpir
