import Fasm.Lib.HashMap
import Fasm.Bytecode.Types

/-!
# Shared queues

`SharedQueue` of `queues.rs`: a message that a consumer takes stays in flight until it is
acknowledged, or is made ready again, after a `nack` or at its deadline, until its retries are
used up.  Every operation holds the lock of the queue from start to end, so that the calls of
any number of clients are a sequence.

An operation that panics under the lock poisons it.  The `notify` handle carries no data and
is left out.
-/

namespace Fasm

variable {π α : Type}

/-- `Message`, with payloads in `π`. -/
structure Message (π : Type) where
  id : String
  payload : π
  retries : U32
deriving DecidableEq

namespace Message

/-- `Message::new`, with the identifier that was drawn for it. -/
def new (id : String) (payload : π) : Message π := ⟨id, payload, 0⟩

/-- The message without its count of retries. -/
def label (m : Message π) : String × π := (m.id, m.payload)

/-- What a redelivery adds.  The count wraps around. -/
def retry (m : Message π) : Message π := { m with retries := m.retries + 1 }

@[simp] theorem label_retry (m : Message π) : m.retry.label = m.label := rfl
@[simp] theorem id_retry (m : Message π) : m.retry.id = m.id := rfl
@[simp] theorem retries_retry (m : Message π) : m.retry.retries = m.retries + 1 := rfl
@[simp] theorem label_fst (m : Message π) : m.label.1 = m.id := rfl

end Message

/-- `PendingAck`.  An `Instant` is a number of nanoseconds on the clock of the machine. -/
structure PendingAck (π : Type) where
  msg : Message π
  deadline : Nat

/-- `SharedQueueInner`, with its timeout in nanoseconds. -/
structure SharedQueueInner (π : Type) where
  ready : List (Message π)
  inFlight : HashMap String (PendingAck π)
  maxRetries : U32
  timeout : Nat

/-- How an operation on a queue can panic. -/
inductive QueuePanic where
  | instantOverflow
  | poisonError
deriving DecidableEq

/-- `Instant + Duration`: panics when the sum cannot be represented.  `limit` is the first
time that an `Instant` of the platform does not hold. -/
def instantAdd (limit now timeout : Nat) : Option Nat :=
  if now + timeout < limit then some (now + timeout) else none

namespace SharedQueueInner

/-- `SharedQueueInner::new`. -/
def new (maxRetries : U32) (timeoutSecs : U64) : SharedQueueInner π :=
  ⟨[], ∅, maxRetries, timeoutSecs.toNat * 10 ^ 9⟩

/-- `enqueue`. -/
def enqueue (msg : Message π) (q : SharedQueueInner π) : SharedQueueInner π :=
  { q with ready := q.ready ++ [msg] }

/-- `try_dequeue`, when the clock shows `now`.  The message has left `ready` before its
deadline is computed. -/
def tryDequeue (limit now : Nat) (q : SharedQueueInner π) :
    EStateM.Result QueuePanic (SharedQueueInner π) (Option (Message π)) :=
  match q.ready with
  | [] => .ok none q
  | msg :: ready =>
    match instantAdd limit now q.timeout with
    | none => .error .instantOverflow { q with ready }
    | some deadline =>
      .ok (some msg) { q with ready, inFlight := q.inFlight.insert msg.id ⟨msg, deadline⟩ }

/-- `ack`. -/
def ack (id : String) (q : SharedQueueInner π) : Bool × SharedQueueInner π :=
  ((q.inFlight.lookup id).isSome, { q with inFlight := q.inFlight.erase id })

/-- `nack`. -/
def nack (id : String) (q : SharedQueueInner π) : Bool × SharedQueueInner π :=
  match q.inFlight.lookup id with
  | some pending =>
    let q := { q with inFlight := q.inFlight.erase id }
    let msg := pending.msg.retry
    (true, if msg.retries ≤ q.maxRetries then q.enqueue msg else q)
  | none => (false, q)

/-- The identifiers that `requeue_expired` collects. -/
def expired (now : Nat) (q : SharedQueueInner π) : Multiset String :=
  q.inFlight.keysWhere fun p => p.deadline ≤ now

/-- `requeue_expired`, with the expired identifiers in the order in which the map gives
them.  The body of the loop is the one of `nack`. -/
def requeueExpired (ids : List String) (q : SharedQueueInner π) : SharedQueueInner π :=
  ids.foldl (fun q id => (q.nack id).2) q

/-- `depth`. -/
def depth (q : SharedQueueInner π) : Nat := q.ready.length + q.inFlight.values.card

end SharedQueueInner

/-- `SharedQueue`: the mutex, and whether a panic has poisoned it. -/
structure SharedQueue (π : Type) where
  inner : SharedQueueInner π
  poisoned : Bool

namespace SharedQueue

/-- What an operation on a queue comes to. -/
abbrev Outcome (π α : Type) : Type := EStateM.Result QueuePanic (SharedQueue π) α

/-- `lock().unwrap()`, and an operation under the lock. -/
def locked (q : SharedQueue π)
    (f : SharedQueueInner π → EStateM.Result QueuePanic (SharedQueueInner π) α) : Outcome π α :=
  if q.poisoned then .error .poisonError q else
    match f q.inner with
    | .ok a inner => .ok a ⟨inner, false⟩
    | .error x inner => .error x ⟨inner, true⟩

/-- `SharedQueue::new`. -/
def new (maxRetries : U32) (timeoutSecs : U64) : SharedQueue π :=
  ⟨.new maxRetries timeoutSecs, false⟩

/-- `send`, with the identifier that is drawn. -/
def send (id : String) (payload : π) (q : SharedQueue π) : Outcome π Unit :=
  q.locked fun q => .ok () (q.enqueue (.new id payload))

/-- `try_dequeue`. -/
def tryDequeue (limit now : Nat) (q : SharedQueue π) : Outcome π (Option (Message π)) :=
  q.locked (·.tryDequeue limit now)

/-- `ack`. -/
def ack (id : String) (q : SharedQueue π) : Outcome π Bool :=
  q.locked fun q => .ok (q.ack id).1 (q.ack id).2

/-- `nack`. -/
def nack (id : String) (q : SharedQueue π) : Outcome π Bool :=
  q.locked fun q => .ok (q.nack id).1 (q.nack id).2

/-- `requeue_expired`. -/
def requeueExpired (ids : List String) (q : SharedQueue π) : Outcome π Unit :=
  q.locked fun q => .ok () (q.requeueExpired ids)

/-- `depth`. -/
def depth (q : SharedQueue π) : Outcome π Nat := q.locked fun q => .ok q.depth q

end SharedQueue

end Fasm
