import Fasm.Engine.Queues
import Mathlib.Data.Multiset.Filter
import Mathlib.Logic.Relation

/-!
# Where the messages of a queue are

A run is a sequence of calls on one queue, from any number of clients.  Beside the queue it
keeps a ledger of what the clients have seen: what was sent, what was returned, and which
messages have left the queue at an `ack`, or at a `nack` or an expiry.  As long as every
deadline can be represented, the queue and the ledger account for each sent message once.
-/

namespace Fasm

variable {π : Type}

/-! ## Messages of a queue -/

namespace SharedQueueInner

/-- The messages in flight. -/
def pending (q : SharedQueueInner π) : Multiset (Message π) := q.inFlight.values.map PendingAck.msg

/-- The messages that are ready or in flight. -/
def messages (q : SharedQueueInner π) : Multiset (Message π) := q.ready + q.pending

/-- The messages of `q` of which `q'` has none with the same identifier. -/
def goneFrom (q q' : SharedQueueInner π) : Multiset (Message π) :=
  q.messages.filter fun m => m.id ∉ q'.messages.map Message.id

/-- Every message has retries left, or has just used the last one. -/
def Bounded (q : SharedQueueInner π) : Prop := ∀ m ∈ q.messages, m.retries ≤ q.maxRetries

/-- A message is in flight under its own identifier. -/
def Keyed (q : SharedQueueInner π) : Prop :=
  ∀ id p, q.inFlight.lookup id = some p → p.msg.id = id

variable {q q' : SharedQueueInner π} {gone : Multiset (Message π)}

/-- `depth` counts the messages. -/
theorem depth_eq (q : SharedQueueInner π) : q.depth = q.messages.card := by
  simp [depth, messages, pending]

/-- `enqueue` adds the message. -/
theorem messages_enqueue (m : Message π) (q : SharedQueueInner π) :
    (q.enqueue m).messages = m ::ₘ q.messages := by
  show ↑(q.ready ++ [m]) + q.pending = m ::ₘ (↑q.ready + q.pending)
  rw [← Multiset.coe_add, Multiset.coe_singleton, add_comm _ ({m} : Multiset (Message π)),
    Multiset.singleton_add, Multiset.cons_add]

/-- The message of an entry in flight is one of the pending ones. -/
theorem pending_erase {id : String} {p : PendingAck π} (h : q.inFlight.lookup id = some p) :
    q.pending = p.msg ::ₘ pending { q with inFlight := q.inFlight.erase id } := by
  unfold pending
  rw [HashMap.values_erase h, Multiset.map_cons]

/-- What becomes of a queue when some of its messages in flight are made ready again, with
one retry more, and the others, `gone`, leave it. -/
structure Releases (q q' : SharedQueueInner π) (gone : Multiset (Message π)) : Prop where
  maxRetries : q'.maxRetries = q.maxRetries
  pending : gone + q'.pending ≤ q.pending
  labels : q'.messages.map Message.label + gone.map Message.label = q.messages.map Message.label
  bounded : q.Bounded → q'.Bounded
  keyed : q.Keyed → q'.Keyed

/-- Nothing happens. -/
theorem Releases.refl (q : SharedQueueInner π) : q.Releases q 0 :=
  ⟨rfl, by simp, by simp, id, id⟩

/-- One after the other. -/
theorem Releases.trans {q'' : SharedQueueInner π} {gone' : Multiset (Message π)}
    (h : q.Releases q' gone) (h' : q'.Releases q'' gone') : q.Releases q'' (gone + gone') where
  maxRetries := h'.maxRetries.trans h.maxRetries
  pending := by
    rw [add_assoc]
    exact (add_le_add_right h'.pending gone).trans h.pending
  labels := by
    rw [Multiset.map_add, ← h.labels, ← h'.labels, add_assoc, add_comm (gone.map _)]
  bounded := h'.bounded ∘ h.bounded
  keyed := h'.keyed ∘ h.keyed

/-- Identifiers tell which messages are gone. -/
theorem Releases.goneFrom_eq (h : q.Releases q' gone) (hids : (q.messages.map Message.id).Nodup) :
    q.goneFrom q' = gone := by
  have hle : gone ≤ q.messages :=
    (Multiset.le_add_right gone _).trans (h.pending.trans (Multiset.le_add_left _ _))
  obtain ⟨kept, hkept⟩ := Multiset.le_iff_exists_add.mp hle
  have hlabels : q'.messages.map Message.label = kept.map Message.label := by
    have := h.labels
    rw [hkept, Multiset.map_add, add_comm] at this
    exact add_left_cancel this
  have hq' : q'.messages.map Message.id = kept.map Message.id := by
    have := congrArg (Multiset.map Prod.fst) hlabels
    rwa [Multiset.map_map, Multiset.map_map] at this
  rw [hkept, Multiset.map_add, Multiset.nodup_add] at hids
  obtain ⟨-, -, hdisj⟩ := hids
  unfold goneFrom
  rw [hq', hkept, Multiset.filter_add]
  have hgone : gone.filter (fun m => m.id ∉ kept.map Message.id) = gone := by
    apply Multiset.filter_eq_self.mpr
    intro m hm
    exact Multiset.disjoint_left.mp hdisj (Multiset.mem_map_of_mem _ hm)
  have hnone : kept.filter (fun m => m.id ∉ kept.map Message.id) = 0 := by
    apply Multiset.filter_eq_nil.mpr
    intro m hm hn
    exact hn (Multiset.mem_map_of_mem _ hm)
  rw [hgone, hnone, add_zero]

/-- Taking an entry out of the map leaves the others under their identifiers. -/
theorem Keyed.erase (h : q.Keyed) (id : String) :
    Keyed { q with inFlight := q.inFlight.erase id } := by
  intro id' p hp
  exact h id' p (HashMap.lookup_of_erase hp)

/-- Taking an entry out of the map, and its message out of the queue. -/
theorem releases_erase {id : String} {p : PendingAck π} (h : q.inFlight.lookup id = some p) :
    q.Releases { q with inFlight := q.inFlight.erase id } {p.msg} := by
  have hmessages : q.messages =
      p.msg ::ₘ messages { q with inFlight := q.inFlight.erase id } := by
    simp only [messages]
    rw [pending_erase h, Multiset.add_cons]
  refine ⟨rfl, ?_, ?_, ?_, fun hkeyed => hkeyed.erase id⟩
  · rw [pending_erase h, Multiset.singleton_add]
  · rw [hmessages, Multiset.map_cons, Multiset.map_singleton, add_comm, Multiset.singleton_add]
  · intro hb m hm
    apply hb
    rw [hmessages]
    exact Multiset.mem_cons_of_mem hm

/-- `ack` takes the message out of the queue, if it is in flight. -/
theorem releases_ack (id : String) (q : SharedQueueInner π) :
    ∃ gone, q.Releases (q.ack id).2 gone := by
  cases h : q.inFlight.lookup id with
  | some p => exact ⟨_, releases_erase h⟩
  | none =>
    have hsame : (q.ack id).2 = q := by
      simp only [ack, HashMap.erase_of_notMem (Finmap.lookup_eq_none.mp h)]
    rw [hsame]
    exact ⟨0, .refl q⟩

/-- `nack` makes the message ready again, unless its retries are used up. -/
theorem releases_nack (id : String) (q : SharedQueueInner π) :
    ∃ gone, q.Releases (q.nack id).2 gone ∧ ∀ m ∈ gone, q.maxRetries < m.retries + 1 := by
  unfold nack
  cases h : q.inFlight.lookup id with
  | none => exact ⟨0, .refl q, nofun⟩
  | some p =>
    have herase := releases_erase h
    show ∃ gone, q.Releases (if p.msg.retries + 1 ≤ q.maxRetries then _ else _) gone ∧ _
    split
    · rename_i hle
      refine ⟨0, ⟨rfl, ?_, ?_, ?_, ?_⟩, nofun⟩
      · rw [zero_add]
        exact (Multiset.le_add_left _ _).trans herase.pending
      · rw [messages_enqueue, ← herase.labels, Multiset.map_cons, Multiset.map_zero, add_zero,
          Multiset.map_singleton, add_comm, Multiset.singleton_add, Message.label_retry]
      · intro hb m hm
        rw [messages_enqueue, Multiset.mem_cons] at hm
        rcases hm with rfl | hm
        · exact hle
        · exact herase.bounded hb m hm
      · exact herase.keyed
    · rename_i hgt
      refine ⟨_, herase, ?_⟩
      intro m hm
      rw [Multiset.mem_singleton.mp hm]
      exact BitVec.not_le.mp hgt

/-- `requeue_expired` does what a `nack` of each expired message does. -/
theorem releases_requeueExpired (ids : List String) (q : SharedQueueInner π) :
    ∃ gone, q.Releases (q.requeueExpired ids) gone ∧ ∀ m ∈ gone, q.maxRetries < m.retries + 1 := by
  induction ids generalizing q with
  | nil => exact ⟨0, .refl q, nofun⟩
  | cons id ids ih =>
    obtain ⟨gone, hnack, hgone⟩ := q.releases_nack id
    obtain ⟨gone', hrest, hgone'⟩ := ih (q.nack id).2
    refine ⟨gone + gone', hnack.trans hrest, ?_⟩
    intro m hm
    rcases Multiset.mem_add.mp hm with hm | hm
    · exact hgone m hm
    · rw [← hnack.maxRetries]
      exact hgone' m hm

/-- An `ack` of what is not in flight. -/
theorem ack_of_notMem {id : String} (h : id ∉ q.inFlight) : q.ack id = (false, q) := by
  simp only [ack, HashMap.erase_of_notMem h, Finmap.lookup_eq_none.mpr h, Option.isSome_none]

/-- A `nack` of what is not in flight. -/
theorem nack_of_notMem {id : String} (h : id ∉ q.inFlight) : q.nack id = (false, q) := by
  simp only [nack, Finmap.lookup_eq_none.mpr h]

end SharedQueueInner

namespace SharedQueue

variable {q : SharedQueue π} {limit now : Nat} {m : Message π} {ready : List (Message π)}

/-- Nothing is ready. -/
theorem tryDequeue_nil (h : q.poisoned = false) (hready : q.inner.ready = []) :
    q.tryDequeue limit now = .ok none ⟨q.inner, false⟩ := by
  simp only [tryDequeue, locked, h, SharedQueueInner.tryDequeue, hready, Bool.false_eq_true,
    if_false]

/-- The first message is put in flight. -/
theorem tryDequeue_cons (h : q.poisoned = false) (hready : q.inner.ready = m :: ready)
    {deadline : Nat} (hdeadline : instantAdd limit now q.inner.timeout = some deadline) :
    q.tryDequeue limit now = .ok (some m) ⟨{ q.inner with
      ready, inFlight := q.inner.inFlight.insert m.id ⟨m, deadline⟩ }, false⟩ := by
  simp only [tryDequeue, locked, h, SharedQueueInner.tryDequeue, hready, hdeadline,
    Bool.false_eq_true, if_false]

/-- The first message is lost. -/
theorem tryDequeue_late (h : q.poisoned = false) (hready : q.inner.ready = m :: ready)
    (hdeadline : instantAdd limit now q.inner.timeout = none) :
    q.tryDequeue limit now = .error .instantOverflow ⟨{ q.inner with ready }, true⟩ := by
  simp only [tryDequeue, locked, h, SharedQueueInner.tryDequeue, hready, hdeadline,
    Bool.false_eq_true, if_false]

end SharedQueue

/-! ## Calls of clients -/

/-- A call, with what it takes from outside the queue: the identifier that is drawn, the
time that the clock shows, the order in which the map gives the expired messages. -/
inductive QueueCall (π : Type) where
  | send (id : String) (payload : π)
  | tryDequeue (now : Nat)
  | ack (id : String)
  | nack (id : String)
  | requeueExpired (now : Nat) (ids : List String)

/-- A queue, and the ledger of its run so far. -/
structure QueueRun (π : Type) where
  queue : SharedQueue π
  sent : List (Message π)
  returned : List (Message π)
  acked : Multiset (Message π)
  dropped : Multiset (Message π)

namespace QueueRun

/-- A new queue. -/
def new (maxRetries : U32) (timeoutSecs : U64) : QueueRun π :=
  ⟨.new maxRetries timeoutSecs, [], [], 0, 0⟩

/-- What a call does.  A message has been acknowledged, or dropped, when it is gone from the
queue after an `ack`, or after a `nack` or an expiry. -/
def step (limit : Nat) (s : QueueRun π) : QueueCall π → QueueRun π
  | .send id payload =>
    match s.queue.send id payload with
    | .ok _ queue => { s with queue, sent := s.sent ++ [.new id payload] }
    | .error _ queue => { s with queue }
  | .tryDequeue now =>
    match s.queue.tryDequeue limit now with
    | .ok msg queue => { s with queue, returned := s.returned ++ msg.toList }
    | .error _ queue => { s with queue }
  | .ack id =>
    match s.queue.ack id with
    | .ok _ queue => { s with queue, acked := s.acked + s.queue.inner.goneFrom queue.inner }
    | .error _ queue => { s with queue }
  | .nack id =>
    match s.queue.nack id with
    | .ok _ queue => { s with queue, dropped := s.dropped + s.queue.inner.goneFrom queue.inner }
    | .error _ queue => { s with queue }
  | .requeueExpired _ ids =>
    match s.queue.requeueExpired ids with
    | .ok _ queue => { s with queue, dropped := s.dropped + s.queue.inner.goneFrom queue.inner }
    | .error _ queue => { s with queue }

/-- Calls on a queue that is not poisoned. -/
theorem step_send {s : QueueRun π} (h : s.queue.poisoned = false) (limit : Nat) (id : String)
    (payload : π) : s.step limit (.send id payload) = { s with
      queue := ⟨s.queue.inner.enqueue (.new id payload), false⟩,
      sent := s.sent ++ [.new id payload] } := by
  simp only [step, SharedQueue.send, SharedQueue.locked, h, Bool.false_eq_true, if_false]

theorem step_ack {s : QueueRun π} (h : s.queue.poisoned = false) (limit : Nat) (id : String) :
    s.step limit (.ack id) = { s with
      queue := ⟨(s.queue.inner.ack id).2, false⟩,
      acked := s.acked + s.queue.inner.goneFrom (s.queue.inner.ack id).2 } := by
  simp only [step, SharedQueue.ack, SharedQueue.locked, h, Bool.false_eq_true, if_false]

theorem step_nack {s : QueueRun π} (h : s.queue.poisoned = false) (limit : Nat) (id : String) :
    s.step limit (.nack id) = { s with
      queue := ⟨(s.queue.inner.nack id).2, false⟩,
      dropped := s.dropped + s.queue.inner.goneFrom (s.queue.inner.nack id).2 } := by
  simp only [step, SharedQueue.nack, SharedQueue.locked, h, Bool.false_eq_true, if_false]

theorem step_requeueExpired {s : QueueRun π} (h : s.queue.poisoned = false) (limit now : Nat)
    (ids : List String) : s.step limit (.requeueExpired now ids) = { s with
      queue := ⟨s.queue.inner.requeueExpired ids, false⟩,
      dropped := s.dropped + s.queue.inner.goneFrom (s.queue.inner.requeueExpired ids) } := by
  simp only [step, SharedQueue.requeueExpired, SharedQueue.locked, h, Bool.false_eq_true, if_false]

theorem step_tryDequeue_nil {s : QueueRun π} (h : s.queue.poisoned = false)
    (hready : s.queue.inner.ready = []) (limit now : Nat) :
    s.step limit (.tryDequeue now) = { s with queue := ⟨s.queue.inner, false⟩ } := by
  simp only [step, SharedQueue.tryDequeue_nil h hready, Option.toList_none, List.append_nil]

theorem step_tryDequeue_cons {s : QueueRun π} (h : s.queue.poisoned = false) {m : Message π}
    {ready : List (Message π)} (hready : s.queue.inner.ready = m :: ready) {limit now : Nat}
    {deadline : Nat} (hdeadline : instantAdd limit now s.queue.inner.timeout = some deadline) :
    s.step limit (.tryDequeue now) = { s with
      queue := ⟨{ s.queue.inner with
        ready, inFlight := s.queue.inner.inFlight.insert m.id ⟨m, deadline⟩ }, false⟩,
      returned := s.returned ++ [m] } := by
  simp only [step, SharedQueue.tryDequeue_cons h hready hdeadline, Option.toList_some]

theorem step_tryDequeue_late {s : QueueRun π} (h : s.queue.poisoned = false) {m : Message π}
    {ready : List (Message π)} (hready : s.queue.inner.ready = m :: ready) {limit now : Nat}
    (hdeadline : instantAdd limit now s.queue.inner.timeout = none) :
    s.step limit (.tryDequeue now) =
      { s with queue := ⟨{ s.queue.inner with ready }, true⟩ } := by
  simp only [step, SharedQueue.tryDequeue_late h hready hdeadline]

/-- The calls that can be made: identifiers are drawn once, and `requeue_expired` collects the
messages whose deadline has passed, in some order. -/
def Admits (s : QueueRun π) : QueueCall π → Prop
  | .send id _ => id ∉ s.sent.map Message.id
  | .requeueExpired now ids => (ids : Multiset String) = s.queue.inner.expired now
  | _ => True

/-- The call computes no deadline that an `Instant` cannot hold. -/
def Fits (limit : Nat) (s : QueueRun π) : QueueCall π → Prop
  | .tryDequeue now =>
    s.queue.inner.ready ≠ [] → instantAdd limit now s.queue.inner.timeout ≠ none
  | _ => True

/-- A step of a run. -/
def Step (limit : Nat) (s s' : QueueRun π) : Prop := ∃ c, s.Admits c ∧ s' = s.step limit c

/-- A step of a run in which every deadline is representable. -/
def FittingStep (limit : Nat) (s s' : QueueRun π) : Prop :=
  ∃ c, s.Admits c ∧ s.Fits limit c ∧ s' = s.step limit c

/-- Every message that was sent is ready, in flight, acknowledged or dropped, and is so once;
those that were dropped had no retries left, and those in the queue have. -/
structure Conserves (maxRetries : U32) (s : QueueRun π) : Prop where
  once : (s.sent.map Message.id).Nodup
  places : (s.queue.inner.ready : Multiset (Message π)).map Message.label +
    s.queue.inner.pending.map Message.label + s.acked.map Message.label +
    s.dropped.map Message.label = (s.sent : Multiset (Message π)).map Message.label
  retries : ∀ m ∈ s.queue.inner.messages, m.retries ≤ maxRetries
  exhausted : ∀ m ∈ s.dropped, maxRetries < m.retries + 1
  depth : ∃ d, s.queue.depth = .ok d s.queue ∧ d + s.acked.card + s.dropped.card = s.sent.length
  ackAbsent : ∀ id ∉ s.queue.inner.inFlight, s.queue.ack id = .ok false s.queue
  nackAbsent : ∀ id ∉ s.queue.inner.inFlight, s.queue.nack id = .ok false s.queue

/-- What every call keeps. -/
structure Accounts (maxRetries : U32) (s : QueueRun π) : Prop where
  unpoisoned : s.queue.poisoned = false
  config : s.queue.inner.maxRetries = maxRetries
  keyed : s.queue.inner.Keyed
  once : (s.sent.map Message.id).Nodup
  places : s.queue.inner.messages.map Message.label + s.acked.map Message.label +
    s.dropped.map Message.label = (s.sent : Multiset (Message π)).map Message.label
  bounded : s.queue.inner.Bounded
  exhausted : ∀ m ∈ s.dropped, maxRetries < m.retries + 1

variable {limit : Nat} {maxRetries : U32} {s : QueueRun π}

/-- A queue that nothing was sent to. -/
theorem accounts_new (timeoutSecs : U64) :
    (new maxRetries timeoutSecs : QueueRun π).Accounts maxRetries := by
  refine ⟨rfl, rfl, ?_, List.nodup_nil, rfl, ?_, nofun⟩
  · intro id p hp
    cases hp
  · intro m hm
    exact absurd hm (Multiset.notMem_zero m)

namespace Accounts

/-- The identifiers of the messages in the queue are distinct. -/
theorem nodup (h : s.Accounts maxRetries) : (s.queue.inner.messages.map Message.id).Nodup := by
  have hle : s.queue.inner.messages.map Message.label ≤
      (s.sent : Multiset (Message π)).map Message.label := by
    rw [← h.places, add_assoc]
    exact Multiset.le_add_right _ _
  have hids := Multiset.map_le_map (f := Prod.fst) hle
  rw [Multiset.map_map, Multiset.map_map] at hids
  exact Multiset.nodup_of_le hids h.once

variable {q' : SharedQueueInner π} {gone : Multiset (Message π)}

/-- Messages leave the queue at an `ack`. -/
theorem ack (h : s.Accounts maxRetries) (hrel : s.queue.inner.Releases q' gone) :
    Accounts maxRetries { s with
      queue := ⟨q', false⟩, acked := s.acked + s.queue.inner.goneFrom q' } := by
  rw [hrel.goneFrom_eq h.nodup]
  refine ⟨rfl, hrel.maxRetries.trans h.config, hrel.keyed h.keyed, h.once, ?_,
    hrel.bounded h.bounded, h.exhausted⟩
  rw [← h.places, ← hrel.labels, Multiset.map_add, add_assoc _ (gone.map _), add_comm (gone.map _)]

/-- Messages leave the queue at a `nack` or an expiry, which has used up their retries. -/
theorem drop (h : s.Accounts maxRetries) (hrel : s.queue.inner.Releases q' gone)
    (hgone : ∀ m ∈ gone, s.queue.inner.maxRetries < m.retries + 1) :
    Accounts maxRetries { s with
      queue := ⟨q', false⟩, dropped := s.dropped + s.queue.inner.goneFrom q' } := by
  rw [hrel.goneFrom_eq h.nodup]
  refine ⟨rfl, hrel.maxRetries.trans h.config, hrel.keyed h.keyed, h.once, ?_,
    hrel.bounded h.bounded, ?_⟩
  · rw [← h.places, ← hrel.labels, Multiset.map_add, add_right_comm _ (gone.map _),
      add_assoc _ (gone.map _), add_comm (gone.map _), ← add_assoc]
  · intro m hm
    rcases Multiset.mem_add.mp hm with hm | hm
    · exact h.exhausted m hm
    · rw [← h.config]
      exact hgone m hm

/-- A message that is sent is ready. -/
theorem send (h : s.Accounts maxRetries) {id : String} (hid : id ∉ s.sent.map Message.id)
    (payload : π) :
    Accounts maxRetries { s with
      queue := ⟨s.queue.inner.enqueue (.new id payload), false⟩,
      sent := s.sent ++ [.new id payload] } := by
  refine ⟨rfl, h.config, h.keyed, ?_, ?_, ?_, h.exhausted⟩
  · rw [List.map_append, List.map_singleton, List.nodup_append]
    refine ⟨h.once, List.nodup_singleton _, ?_⟩
    intro id' hid' id'' hid''
    rw [List.mem_singleton.mp hid'']
    rintro rfl
    exact hid hid'
  · rw [SharedQueueInner.messages_enqueue, Multiset.map_cons, Multiset.cons_add,
      Multiset.cons_add, h.places, ← Multiset.coe_add, Multiset.map_add, add_comm]
    rfl
  · intro m hm
    rw [SharedQueueInner.messages_enqueue, Multiset.mem_cons] at hm
    rcases hm with rfl | hm
    · exact BitVec.le_def.mpr (Nat.zero_le _)
    · exact h.bounded m hm

/-- A message that is dequeued is in flight. -/
theorem dequeue (h : s.Accounts maxRetries) {m : Message π} {ready : List (Message π)}
    (hready : s.queue.inner.ready = m :: ready) (deadline : Nat) (returned : List (Message π)) :
    Accounts maxRetries { s with
      queue := ⟨{ s.queue.inner with
        ready, inFlight := s.queue.inner.inFlight.insert m.id ⟨m, deadline⟩ }, false⟩,
      returned } := by
  have hnodup := h.nodup
  unfold SharedQueueInner.messages at hnodup
  rw [hready, ← Multiset.cons_coe, Multiset.cons_add, Multiset.map_cons,
    Multiset.nodup_cons] at hnodup
  have hnew : m.id ∉ s.queue.inner.inFlight := by
    intro hin
    obtain ⟨p, hp⟩ := Finmap.mem_iff.mp hin
    apply hnodup.1
    rw [Multiset.map_add]
    refine Multiset.mem_add.mpr (.inr ?_)
    rw [← h.keyed m.id p hp]
    exact Multiset.mem_map_of_mem _ (Multiset.mem_map_of_mem _ (HashMap.mem_values hp))
  have hmessages : SharedQueueInner.messages { s.queue.inner with
      ready, inFlight := s.queue.inner.inFlight.insert m.id ⟨m, deadline⟩ } =
      s.queue.inner.messages := by
    unfold SharedQueueInner.messages SharedQueueInner.pending
    rw [HashMap.values_insert hnew, hready, Multiset.map_cons, Multiset.add_cons,
      ← Multiset.cons_coe, Multiset.cons_add]
  refine ⟨rfl, h.config, ?_, h.once, ?_, ?_, h.exhausted⟩
  · intro id p hp
    rcases HashMap.lookup_of_insert hp with ⟨rfl, rfl⟩ | hp
    · rfl
    · exact h.keyed id p hp
  · rw [hmessages]
    exact h.places
  · intro m' hm'
    rw [hmessages] at hm'
    exact h.bounded m' hm'

/-- Every call keeps the accounts, unless it computes a deadline that is too late. -/
theorem step (h : s.Accounts maxRetries) {c : QueueCall π} (hadmits : s.Admits c)
    (hfits : s.Fits limit c) : (s.step limit c).Accounts maxRetries := by
  cases c with
  | send id payload =>
    rw [step_send h.unpoisoned]
    exact h.send hadmits payload
  | ack id =>
    obtain ⟨gone, hrel⟩ := s.queue.inner.releases_ack id
    rw [step_ack h.unpoisoned]
    exact h.ack hrel
  | nack id =>
    obtain ⟨gone, hrel, hgone⟩ := s.queue.inner.releases_nack id
    rw [step_nack h.unpoisoned]
    exact h.drop hrel hgone
  | requeueExpired now ids =>
    obtain ⟨gone, hrel, hgone⟩ := s.queue.inner.releases_requeueExpired ids
    rw [step_requeueExpired h.unpoisoned]
    exact h.drop hrel hgone
  | tryDequeue now =>
    cases hready : s.queue.inner.ready with
    | nil =>
      rw [step_tryDequeue_nil h.unpoisoned hready]
      exact ⟨rfl, h.config, h.keyed, h.once, h.places, h.bounded, h.exhausted⟩
    | cons m ready =>
      cases hdeadline : instantAdd limit now s.queue.inner.timeout with
      | none => exact absurd hdeadline (hfits (by rw [hready]; exact List.cons_ne_nil m ready))
      | some deadline =>
        rw [step_tryDequeue_cons h.unpoisoned hready hdeadline]
        exact h.dequeue hready deadline _

/-- What the accounts say. -/
theorem conserves (h : s.Accounts maxRetries) : s.Conserves maxRetries where
  once := h.once
  places := by
    rw [← Multiset.map_add]
    exact h.places
  retries m hm := by
    rw [← h.config]
    exact h.bounded m hm
  exhausted := h.exhausted
  depth := by
    refine ⟨s.queue.inner.depth, ?_, ?_⟩
    · rcases s with ⟨⟨q, poisoned⟩, sent, returned, acked, dropped⟩
      cases h.unpoisoned
      rfl
    · have := congrArg Multiset.card h.places
      simpa [SharedQueueInner.depth_eq] using this
  ackAbsent id hid := by
    rcases s with ⟨⟨q, poisoned⟩, sent, returned, acked, dropped⟩
    cases h.unpoisoned
    simp only [SharedQueue.ack, SharedQueue.locked, SharedQueueInner.ack_of_notMem hid]
    rfl
  nackAbsent id hid := by
    rcases s with ⟨⟨q, poisoned⟩, sent, returned, acked, dropped⟩
    cases h.unpoisoned
    simp only [SharedQueue.nack, SharedQueue.locked, SharedQueueInner.nack_of_notMem hid]
    rfl

end Accounts

/-- A run in which every deadline is representable keeps the accounts. -/
theorem accounts_of_run {timeoutSecs : U64}
    (h : Relation.ReflTransGen (FittingStep limit) (new maxRetries timeoutSecs) s) :
    s.Accounts maxRetries := by
  induction h with
  | refl => exact accounts_new timeoutSecs
  | tail _ hstep ih =>
    obtain ⟨c, hadmits, hfits, rfl⟩ := hstep
    exact ih.step hadmits hfits

/-- **Conservation.**  In every run whose deadlines are all representable, each message that
was sent is ready, in flight, acknowledged or dropped, once. -/
theorem queue_conserves {timeoutSecs : U64}
    (h : Relation.ReflTransGen (FittingStep limit) (new maxRetries timeoutSecs) s) :
    s.Conserves maxRetries :=
  (accounts_of_run h).conserves

/-- The clock of a Unix system counts seconds in an `i64`. -/
def unixLimit : Nat := 2 ^ 63 * 10 ^ 9

/-- A message that is dequeued and given up for good. -/
theorem queue_conserves_dropped :
    Conserves 0 (((new 0 30).step unixLimit (.send "a" ())).step unixLimit (.tryDequeue 5)
      |>.step unixLimit (.nack "a")) := by
  exact @queue_conserves _ unixLimit 0 _ 30 <|
    .tail (.tail (.single ⟨.send "a" (), List.not_mem_nil, trivial, rfl⟩)
      ⟨.tryDequeue 5, trivial, fun _ => by decide, rfl⟩) ⟨.nack "a", trivial, trivial, rfl⟩

/-- With the longest timeout, the first `try_dequeue` panics after the message has left
`ready`. -/
theorem queue_loses_message :
    ∃ s : QueueRun Unit, Relation.ReflTransGen (Step unixLimit) (new 3 (-1)) s ∧
      s.sent = [.new "a" ()] ∧ s.queue.inner.messages = 0 ∧ s.acked = 0 ∧ s.dropped = 0 ∧
      ¬ s.Conserves 3 := by
  refine ⟨((new 3 (-1)).step unixLimit (.send "a" ())).step unixLimit (.tryDequeue 0),
    .tail (.single ⟨.send "a" (), List.not_mem_nil, rfl⟩) ⟨.tryDequeue 0, trivial, rfl⟩,
    rfl, rfl, rfl, rfl, ?_⟩
  intro h
  have hplaces := congrArg Multiset.card h.places
  exact absurd hplaces (by decide)

end QueueRun

end Fasm
