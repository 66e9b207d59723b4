import Fasm.Engine.QueueRuns

/-!
# The queue looper

`queue_looper.rs`: a task that takes messages from one queue and hands each to the
dispatcher, which turns it away when the engine is overloaded.  The message is in flight by
then, and comes back when its deadline has passed, at the cost of a retry.

The steps of the task are interleaved with the calls of the clients.  The arguments of the
request and the metrics have no part in what becomes of a message and are left out.
-/

namespace Fasm

variable {π : Type}

/-- Where the task is in its loop. -/
inductive LooperPhase (π : Type) where
  | top
  | polling
  | dispatching (msg : Message π)
  | panicked

/-- The queue with its ledger, the state of the task, and the identifiers of the messages for
which `spawn_fire_and_forget` has returned `Ok`. -/
structure Looper (π : Type) where
  run : QueueRun π
  phase : LooperPhase π
  expireCounter : Nat
  accepted : List String

/-- A call of a client, or a step of the task. -/
inductive LooperEvent (π : Type) where
  | send (id : String) (payload : π)
  | ack (id : String)
  | expire (now : Nat) (ids : List String)
  | poll (now : Nat)
  | dispatch (ok : Bool)

namespace Looper

open QueueRun

/-- The task has been spawned. -/
def new (maxRetries : U32) (timeoutSecs : U64) : Looper π :=
  ⟨.new maxRetries timeoutSecs, .top, 0, []⟩

/-- The phase after an operation on the queue. -/
def after {α : Type} (phase : α → LooperPhase π) : SharedQueue.Outcome π α → LooperPhase π
  | .ok a _ => phase a
  | .error _ _ => .panicked

/-- `spawn_queue_looper`, the body of the loop in three steps. -/
def step (limit : Nat) (s : Looper π) : LooperEvent π → Looper π
  | .send id payload => { s with run := s.run.step limit (.send id payload) }
  | .ack id => { s with run := s.run.step limit (.ack id) }
  | .expire now ids =>
    let expireCounter := s.expireCounter + 1
    if 30 ≤ expireCounter then
      { s with
        run := s.run.step limit (.requeueExpired now ids),
        phase := after (fun _ => .polling) (s.run.queue.requeueExpired ids),
        expireCounter := 0 }
    else { s with phase := .polling, expireCounter }
  | .poll now =>
    { s with
      run := s.run.step limit (.tryDequeue now),
      phase := after (fun msg => msg.elim .top .dispatching) (s.run.queue.tryDequeue limit now) }
  | .dispatch ok =>
    match s.phase with
    | .dispatching msg =>
      { s with phase := .top, accepted := if ok then s.accepted ++ [msg.id] else s.accepted }
    | _ => s

/-- The events that can happen. -/
def Admits (s : Looper π) : LooperEvent π → Prop
  | .send id payload => s.run.Admits (.send id payload)
  | .ack _ => True
  | .expire now ids =>
    s.phase = .top ∧ (30 ≤ s.expireCounter + 1 → s.run.Admits (.requeueExpired now ids))
  | .poll _ => s.phase = .polling
  | .dispatch _ => ∃ msg, s.phase = .dispatching msg

/-- The next retry of the message is one too many. -/
def LastDelivery (s : Looper π) (m : Message π) : Prop :=
  s.run.queue.inner.maxRetries < m.retries + 1

/-- A message that has not been accepted is not turned away at its last delivery, and every
deadline is representable. -/
def Safe (limit : Nat) (s : Looper π) : LooperEvent π → Prop
  | .poll now => s.run.Fits limit (.tryDequeue now)
  | .dispatch ok =>
    ∀ msg, s.phase = .dispatching msg → s.LastDelivery msg → msg.id ∉ s.accepted → ok = true
  | _ => True

/-- A step of the system. -/
def Step (limit : Nat) (s s' : Looper π) : Prop := ∃ e, s.Admits e ∧ s' = s.step limit e

/-- A step in which no message loses its last delivery. -/
def SafeStep (limit : Nat) (s s' : Looper π) : Prop :=
  ∃ e, s.Admits e ∧ s.Safe limit e ∧ s' = s.step limit e

/-- Every message that was sent is in the queue, acknowledged, or was accepted. -/
def NothingLost (s : Looper π) : Prop :=
  ∀ m ∈ s.run.sent, m.id ∈ s.run.queue.inner.messages.map Message.id ∨
    m.id ∈ s.run.acked.map Message.id ∨ m.id ∈ s.accepted

/-- A message in flight has another delivery left, was accepted, or is just being handed to
the dispatcher; and what was dropped was accepted. -/
structure Serves (maxRetries : U32) (s : Looper π) : Prop where
  accounts : s.run.Accounts maxRetries
  pending : ∀ m ∈ s.run.queue.inner.pending, s.LastDelivery m →
    m.id ∈ s.accepted ∨ s.phase = .dispatching m
  dropped : ∀ m ∈ s.run.dropped, m.id ∈ s.accepted

variable {limit : Nat} {maxRetries : U32} {s : Looper π}

namespace Serves

/-- What the invariant says of the messages that were sent. -/
theorem nothingLost (h : s.Serves maxRetries) : s.NothingLost := by
  intro m hm
  have hlabel : m.label ∈ (s.run.sent : Multiset (Message π)).map Message.label :=
    Multiset.mem_map_of_mem _ hm
  have hid : ∀ {l : Multiset (Message π)}, m.label ∈ l.map Message.label →
      m.id ∈ l.map Message.id := by
    intro l hl
    obtain ⟨m', hm', heq⟩ := Multiset.mem_map.mp hl
    exact Multiset.mem_map.mpr ⟨m', hm', congrArg Prod.fst heq⟩
  rw [← h.accounts.places, Multiset.mem_add, Multiset.mem_add] at hlabel
  rcases hlabel with (hqueue | hacked) | hdropped
  · exact .inl (hid hqueue)
  · exact .inr (.inl (hid hacked))
  · obtain ⟨m', hm', heq⟩ := Multiset.mem_map.mp (hid hdropped)
    rw [← heq]
    exact .inr (.inr (h.dropped m' hm'))

/-- When nothing is being handed to the dispatcher, what is at its last delivery was accepted. -/
theorem accepted_of_pending (h : s.Serves maxRetries)
    (hphase : ∀ msg, s.phase ≠ .dispatching msg) {m : Message π}
    (hm : m ∈ s.run.queue.inner.pending) (hlast : s.LastDelivery m) : m.id ∈ s.accepted :=
  (h.pending m hm hlast).resolve_right (hphase m)

/-- A new message is not in flight. -/
theorem send (h : s.Serves maxRetries) {id : String} {payload : π}
    (hadmits : s.run.Admits (.send id payload)) :
    (s.step limit (.send id payload)).Serves maxRetries := by
  have haccounts := @Accounts.step _ limit _ _ h.accounts _ hadmits trivial
  refine ⟨haccounts, ?_, ?_⟩
  · simp only [step, LastDelivery, step_send h.accounts.unpoisoned]
    exact h.pending
  · simp only [step, step_send h.accounts.unpoisoned]
    exact h.dropped

/-- An `ack` takes a message out of flight. -/
theorem ack (h : s.Serves maxRetries) (id : String) :
    (s.step limit (.ack id)).Serves maxRetries := by
  obtain ⟨gone, hrel⟩ := s.run.queue.inner.releases_ack id
  have haccounts := @Accounts.step _ limit _ _ h.accounts (.ack id) trivial trivial
  refine ⟨haccounts, ?_, ?_⟩
  · simp only [step, LastDelivery, step_ack h.accounts.unpoisoned, hrel.maxRetries]
    intro m hm hlast
    refine h.pending m ?_ hlast
    exact Multiset.mem_of_le ((Multiset.le_add_left _ _).trans hrel.pending) hm
  · simp only [step, step_ack h.accounts.unpoisoned]
    exact h.dropped

/-- What leaves the queue at an expiry was at its last delivery. -/
theorem expire (h : s.Serves maxRetries) {now : Nat} {ids : List String}
    (hadmits : s.Admits (.expire now ids)) :
    (s.step limit (.expire now ids)).Serves maxRetries := by
  obtain ⟨hphase, hids⟩ := hadmits
  have haccepted := @h.accepted_of_pending _ _ _ (by rw [hphase]; exact nofun)
  simp only [step]
  split
  · rename_i hdue
    obtain ⟨gone, hrel, hgone⟩ := s.run.queue.inner.releases_requeueExpired ids
    have haccounts := @Accounts.step _ limit _ _ h.accounts _ (hids hdue) trivial
    refine ⟨haccounts, ?_, ?_⟩
    · simp only [LastDelivery, step_requeueExpired h.accounts.unpoisoned, hrel.maxRetries]
      intro m hm hlast
      refine .inl (haccepted ?_ hlast)
      exact Multiset.mem_of_le ((Multiset.le_add_left _ _).trans hrel.pending) hm
    · simp only [step_requeueExpired h.accounts.unpoisoned,
        hrel.goneFrom_eq h.accounts.nodup, Multiset.mem_add]
      rintro m (hm | hm)
      · exact h.dropped m hm
      · refine haccepted ?_ (hgone m hm)
        exact Multiset.mem_of_le ((Multiset.le_add_right _ _).trans hrel.pending) hm
  · exact ⟨h.accounts, fun m hm hlast => .inl (haccepted hm hlast), h.dropped⟩

/-- A message that is dequeued is handed to the dispatcher next. -/
theorem poll (h : s.Serves maxRetries) {now : Nat} (hphase : s.phase = .polling)
    (hfits : s.run.Fits limit (.tryDequeue now)) :
    (s.step limit (.poll now)).Serves maxRetries := by
  have haccepted := @h.accepted_of_pending _ _ _ (by rw [hphase]; exact nofun)
  have hok := h.accounts.unpoisoned
  have haccounts := @Accounts.step _ limit _ _ h.accounts (.tryDequeue now) trivial hfits
  refine ⟨haccounts, ?_, ?_⟩
  · cases hready : s.run.queue.inner.ready with
    | nil =>
      simp only [step, LastDelivery, step_tryDequeue_nil hok hready]
      exact fun m hm hlast => .inl (haccepted hm hlast)
    | cons msg ready =>
      cases hdeadline : instantAdd limit now s.run.queue.inner.timeout with
      | none => exact absurd hdeadline (hfits (by rw [hready]; exact List.cons_ne_nil msg ready))
      | some deadline =>
        simp only [step, LastDelivery, step_tryDequeue_cons hok hready hdeadline,
          SharedQueue.tryDequeue_cons hok hready hdeadline, after, Option.elim_some]
        intro m hm hlast
        obtain ⟨p, hp, rfl⟩ := Multiset.mem_map.mp hm
        obtain ⟨id, hid⟩ := HashMap.exists_lookup hp
        rcases HashMap.lookup_of_insert hid with ⟨rfl, rfl⟩ | hid
        · exact .inr rfl
        · refine .inl (haccepted ?_ hlast)
          exact Multiset.mem_map_of_mem _ (HashMap.mem_values hid)
  · cases hready : s.run.queue.inner.ready with
    | nil =>
      simp only [step, step_tryDequeue_nil hok hready]
      exact h.dropped
    | cons msg ready =>
      cases hdeadline : instantAdd limit now s.run.queue.inner.timeout with
      | none =>
        simp only [step, step_tryDequeue_late hok hready hdeadline]
        exact h.dropped
      | some deadline =>
        simp only [step, step_tryDequeue_cons hok hready hdeadline]
        exact h.dropped

/-- A message at its last delivery is accepted, unless it was before. -/
theorem dispatch (h : s.Serves maxRetries) {ok : Bool} {msg : Message π}
    (hphase : s.phase = .dispatching msg)
    (hsafe : s.LastDelivery msg → msg.id ∉ s.accepted → ok = true) :
    (s.step limit (.dispatch ok)).Serves maxRetries := by
  simp only [step, hphase]
  have hmono : ∀ {id}, id ∈ s.accepted →
      id ∈ if ok then s.accepted ++ [msg.id] else s.accepted := by
    intro id hid
    split
    · exact List.mem_append_left _ hid
    · exact hid
  refine ⟨h.accounts, ?_, fun m hm => hmono (h.dropped m hm)⟩
  intro m hm hlast
  refine .inl ?_
  rcases h.pending m hm hlast with hacc | hnow
  · exact hmono hacc
  · rw [hphase] at hnow
    cases hnow
    by_cases hacc : msg.id ∈ s.accepted
    · exact hmono hacc
    · rw [if_pos (hsafe hlast hacc)]
      exact List.mem_append_right _ (List.mem_singleton.mpr rfl)

/-- Every safe step keeps the invariant. -/
theorem step (h : s.Serves maxRetries) {e : LooperEvent π} (hadmits : s.Admits e)
    (hsafe : s.Safe limit e) : (s.step limit e).Serves maxRetries := by
  cases e with
  | send id payload => exact h.send hadmits
  | ack id => exact h.ack id
  | expire now ids => exact h.expire hadmits
  | poll now => exact h.poll hadmits hsafe
  | dispatch ok =>
    obtain ⟨msg, hphase⟩ := hadmits
    exact h.dispatch hphase (hsafe msg hphase)

end Serves

/-- A run in which no message loses its last delivery keeps the invariant. -/
theorem serves_of_run {timeoutSecs : U64}
    (h : Relation.ReflTransGen (SafeStep limit) (new maxRetries timeoutSecs) s) :
    s.Serves maxRetries := by
  induction h with
  | refl => exact ⟨accounts_new timeoutSecs, fun m hm => absurd hm (Multiset.notMem_zero m), nofun⟩
  | tail _ hstep ih =>
    obtain ⟨e, hadmits, hsafe, rfl⟩ := hstep
    exact ih.step hadmits hsafe

/-- **Overload.**  In every run in which the dispatcher turns no message away at its last
delivery, unless it has accepted it before, each message that has left the queue was
acknowledged or accepted. -/
theorem looper_loses_nothing {timeoutSecs : U64}
    (h : Relation.ReflTransGen (SafeStep limit) (new maxRetries timeoutSecs) s) :
    s.NothingLost :=
  (serves_of_run h).nothingLost

/-- A message that is accepted when it is first delivered. -/
theorem looper_loses_nothing_accepted :
    NothingLost ((((new 0 30).step unixLimit (.send "a" ())).step unixLimit (.expire 1 [])).step
      unixLimit (.poll 2) |>.step unixLimit (.dispatch true)) :=
  @looper_loses_nothing _ unixLimit 0 _ 30 <|
    .tail (.tail (.tail (.single ⟨.send "a" (), List.not_mem_nil, trivial, rfl⟩)
      ⟨.expire 1 [], ⟨rfl, fun h => absurd h (by decide)⟩, trivial, rfl⟩)
      ⟨.poll 2, rfl, fun _ => by decide, rfl⟩)
      ⟨.dispatch true, ⟨_, rfl⟩, fun _ _ _ _ => rfl, rfl⟩

/-- Iterations that find nothing to do. -/
theorem idle (hphase : s.phase = .top) (hready : s.run.queue.inner.ready = [])
    (hok : s.run.queue.poisoned = false) (n : Nat) (hn : s.expireCounter + n < 30) :
    Relation.ReflTransGen (Step limit) s { s with expireCounter := s.expireCounter + n } := by
  induction n with
  | zero => exact .refl
  | succ n ih =>
    have hexpire : Step limit { s with expireCounter := s.expireCounter + n }
        { s with phase := .polling, expireCounter := s.expireCounter + n + 1 } := by
      refine ⟨.expire 0 [], ⟨hphase, fun h => absurd h (by simp only; omega)⟩, ?_⟩
      simp only [step]
      rw [if_neg (by omega)]
    have hpoll : Step limit
        { s with phase := .polling, expireCounter := s.expireCounter + n + 1 }
        { s with expireCounter := s.expireCounter + (n + 1) } := by
      refine ⟨.poll 0, rfl, ?_⟩
      rcases s with ⟨⟨⟨q, poisoned⟩, sent, returned, acked, dropped⟩, phase, counter, accepted⟩
      cases hphase
      cases hok
      simp only [step, step_tryDequeue_nil rfl hready, SharedQueue.tryDequeue_nil rfl hready,
        after, Option.elim_none]
      rfl
    exact ((ih (by omega)).tail hexpire).tail hpoll

/-- Without retries, a message that is turned away once is dropped when it has expired. -/
theorem looper_drops_unstarted :
    ∃ s : Looper Unit, Relation.ReflTransGen (Step unixLimit) (new 0 0) s ∧
      s.run.sent = [.new "a" ()] ∧ s.run.dropped = {.new "a" ()} ∧ s.accepted = [] ∧
      ¬ s.NothingLost := by
  let s₁ : Looper Unit :=
    ((((new 0 0).step unixLimit (.send "a" ())).step unixLimit (.expire 0 [])).step
      unixLimit (.poll 0)).step unixLimit (.dispatch false)
  let s₂ : Looper Unit := { s₁ with expireCounter := s₁.expireCounter + 28 }
  have h₁ : Relation.ReflTransGen (Step unixLimit) (new 0 0) s₁ :=
    .tail (.tail (.tail (.single ⟨.send "a" (), List.not_mem_nil, rfl⟩)
      ⟨.expire 0 [], ⟨rfl, fun h => absurd h (by decide)⟩, rfl⟩)
      ⟨.poll 0, rfl, rfl⟩) ⟨.dispatch false, ⟨_, rfl⟩, rfl⟩
  have h₂ : Relation.ReflTransGen (Step unixLimit) s₁ s₂ :=
    idle rfl rfl rfl 28 (by decide)
  refine ⟨s₂.step unixLimit (.expire 0 ["a"]),
    (h₁.trans h₂).tail ⟨.expire 0 ["a"], ⟨rfl, fun _ => rfl⟩, rfl⟩, rfl, rfl, rfl, ?_⟩
  intro h
  rcases h (.new "a" ()) (List.mem_singleton.mpr rfl) with h | h | h
  · exact absurd h (Multiset.notMem_zero _)
  · exact absurd h (Multiset.notMem_zero _)
  · exact absurd h List.not_mem_nil

end Looper

end Fasm
