import Fasm.Engine.QueueRuns

/-!
# The order of first deliveries

The messages that no client has seen yet stand in the queue in the order in which they were
sent, behind and between those that wait for another delivery.  So `try_dequeue` returns
messages for the first time in the order of their sending and skips none.
-/

namespace Fasm

variable {π : Type}

/-- The messages of a list of deliveries, each where it is delivered first. -/
def firstDeliveries (returned : List (Message π)) : List (Message π) :=
  returned.foldl (fun seen m => if m.id ∈ seen.map Message.id then seen else seen ++ [m]) []

/-- The first delivery of a message, or another one. -/
theorem firstDeliveries_concat (returned : List (Message π)) (m : Message π) :
    firstDeliveries (returned ++ [m]) =
      if m.id ∈ (firstDeliveries returned).map Message.id then firstDeliveries returned
      else firstDeliveries returned ++ [m] := by
  unfold firstDeliveries
  rw [List.foldl_append]
  rfl

/-- What was delivered was delivered for a first time. -/
theorem mem_ids_firstDeliveries (returned : List (Message π)) (id : String) :
    id ∈ (firstDeliveries returned).map Message.id ↔ id ∈ returned.map Message.id := by
  induction returned using List.reverseRecOn with
  | nil => rfl
  | append_singleton returned m ih =>
    rw [firstDeliveries_concat, List.map_append, List.mem_append, ← ih]
    split
    · rename_i hm
      constructor
      · exact Or.inl
      · rintro (h | h)
        · exact h
        · rw [List.mem_singleton.mp h]
          exact hm
    · rw [List.map_append, List.mem_append]

namespace SharedQueueInner

/-- The ready messages that are not among those returned. -/
def unseen (returned : List (Message π)) (q : SharedQueueInner π) : List (Message π) :=
  q.ready.filter fun m => m.id ∉ returned.map Message.id

/-- The messages in flight have been returned. -/
def Seen (returned : List (Message π)) (q : SharedQueueInner π) : Prop :=
  ∀ id p, q.inFlight.lookup id = some p → p.msg.id = id ∧ id ∈ returned.map Message.id

variable {returned : List (Message π)} {q : SharedQueueInner π}

/-- A message that was returned before makes no difference. -/
theorem unseen_enqueue {m : Message π} (h : m.id ∈ returned.map Message.id) :
    (q.enqueue m).unseen returned = q.unseen returned := by
  show List.filter _ (q.ready ++ [m]) = _
  rw [List.filter_append, List.filter_cons_of_neg (by simpa using h), List.filter_nil,
    List.append_nil]
  rfl

/-- Taking an entry out of the map. -/
theorem Seen.erase (h : q.Seen returned) (id : String) :
    Seen returned { q with inFlight := q.inFlight.erase id } := by
  intro id' p hp
  exact h id' p (HashMap.lookup_of_erase hp)

/-- What `nack` makes ready was returned before. -/
theorem Seen.nack (h : q.Seen returned) (id : String) :
    (q.nack id).2.Seen returned ∧ (q.nack id).2.unseen returned = q.unseen returned := by
  unfold SharedQueueInner.nack
  cases hp : q.inFlight.lookup id with
  | none => exact ⟨h, rfl⟩
  | some p =>
    obtain ⟨hid, hseen⟩ := h id p hp
    show Seen returned (if p.msg.retries + 1 ≤ q.maxRetries then _ else _) ∧
      unseen returned (if p.msg.retries + 1 ≤ q.maxRetries then _ else _) = _
    split
    · refine ⟨h.erase id, unseen_enqueue ?_⟩
      rw [Message.id_retry, hid]
      exact hseen
    · exact ⟨h.erase id, rfl⟩

/-- Nor does an expiry make ready what was not returned. -/
theorem Seen.requeueExpired (h : q.Seen returned) (ids : List String) :
    (q.requeueExpired ids).Seen returned ∧
      (q.requeueExpired ids).unseen returned = q.unseen returned := by
  induction ids generalizing q with
  | nil => exact ⟨h, rfl⟩
  | cons id ids ih =>
    obtain ⟨hseen, hsame⟩ := h.nack id
    obtain ⟨hseen', hsame'⟩ := ih hseen
    exact ⟨hseen', hsame'.trans hsame⟩

end SharedQueueInner

namespace QueueRun

/-- What was sent has been returned, in this order, or waits in it for the first delivery. -/
structure InOrder (s : QueueRun π) : Prop where
  once : (s.sent.map Message.id).Nodup
  order : firstDeliveries s.returned ++ s.queue.inner.unseen s.returned = s.sent
  seen : s.queue.inner.Seen s.returned

/-- As long as no operation has panicked; after that none returns anything. -/
def Ordered (s : QueueRun π) : Prop :=
  if s.queue.poisoned then firstDeliveries s.returned <+: s.sent else s.InOrder

variable {limit : Nat} {s : QueueRun π}

/-- A call on a poisoned queue changes nothing. -/
theorem step_of_poisoned (h : s.queue.poisoned = true) (c : QueueCall π) :
    s.step limit c = s := by
  rcases s with ⟨⟨q, poisoned⟩, sent, returned, acked, dropped⟩
  cases h
  cases c <;> rfl

namespace InOrder

/-- The identifier of what waits for its first delivery was drawn by a `send`. -/
theorem notMem_returned (h : s.InOrder) {id : String} (hid : id ∉ s.sent.map Message.id) :
    id ∉ s.returned.map Message.id := by
  rw [← h.order, List.map_append, List.mem_append, not_or] at hid
  rw [← mem_ids_firstDeliveries]
  exact hid.1

/-- A new message goes behind the others. -/
theorem send (h : s.InOrder) {id : String} (hid : id ∉ s.sent.map Message.id) (payload : π) :
    InOrder { s with
      queue := ⟨s.queue.inner.enqueue (.new id payload), false⟩,
      sent := s.sent ++ [.new id payload] } where
  once := by
    rw [List.map_append, List.map_singleton, List.nodup_append]
    refine ⟨h.once, List.nodup_singleton _, ?_⟩
    intro id' hid' id'' hid''
    rw [List.mem_singleton.mp hid'']
    rintro rfl
    exact hid hid'
  order := by
    have hnew : (Message.new id payload).id ∉ s.returned.map Message.id := h.notMem_returned hid
    show _ ++ List.filter _ (s.queue.inner.ready ++ [Message.new id payload]) = _
    rw [List.filter_append, List.filter_cons_of_pos (by simpa using hnew), List.filter_nil,
      ← h.order, List.append_assoc]
    rfl
  seen := h.seen

/-- Returning a message once more leaves the others as they are. -/
theorem unseen_seen {m : Message π} {ready : List (Message π)}
    (hready : s.queue.inner.ready = m :: ready) (hm : m.id ∈ s.returned.map Message.id) :
    ready.filter (fun m' => m'.id ∉ (s.returned ++ [m]).map Message.id) =
      s.queue.inner.unseen s.returned := by
  unfold SharedQueueInner.unseen
  rw [hready, List.filter_cons_of_neg (by simpa using hm)]
  apply List.filter_congr
  intro m' _
  rw [decide_eq_decide, List.map_append, List.mem_append, not_or, and_iff_left_iff_imp]
  intro hm' heq
  rw [List.map_singleton, List.mem_singleton] at heq
  rw [heq] at hm'
  exact hm' hm

/-- The first delivery of a message takes it, and only it, from those that wait. -/
theorem unseen_new (h : s.InOrder) {m : Message π} {ready : List (Message π)}
    (hready : s.queue.inner.ready = m :: ready) (hm : m.id ∉ s.returned.map Message.id) :
    s.queue.inner.unseen s.returned =
      m :: ready.filter (fun m' => m'.id ∉ (s.returned ++ [m]).map Message.id) := by
  have hunseen : s.queue.inner.unseen s.returned =
      m :: ready.filter fun m' => m'.id ∉ s.returned.map Message.id := by
    unfold SharedQueueInner.unseen
    rw [hready, List.filter_cons_of_pos (by simpa using hm)]
  rw [hunseen]
  congr 1
  apply List.filter_congr
  intro m' hm'
  rw [decide_eq_decide, List.map_append, List.mem_append, not_or, iff_self_and]
  intro hn heq
  rw [List.map_singleton, List.mem_singleton] at heq
  have hnodup := h.once
  rw [← h.order, hunseen, List.map_append, List.map_cons] at hnodup
  refine (List.nodup_cons.mp (List.nodup_append.mp hnodup).2.1).1 ?_
  rw [← heq]
  exact List.mem_map_of_mem (List.mem_filter.mpr ⟨hm', by simpa using hn⟩)

/-- A delivery: of the first message that waits for it, or of one that was returned before. -/
theorem dequeue (h : s.InOrder) {m : Message π} {ready : List (Message π)}
    (hready : s.queue.inner.ready = m :: ready) (deadline : Nat) :
    InOrder { s with
      queue := ⟨{ s.queue.inner with
        ready, inFlight := s.queue.inner.inFlight.insert m.id ⟨m, deadline⟩ }, false⟩,
      returned := s.returned ++ [m] } := by
  refine ⟨h.once, ?_, ?_⟩
  · show firstDeliveries (s.returned ++ [m]) ++
      ready.filter (fun m' => m'.id ∉ (s.returned ++ [m]).map Message.id) = s.sent
    rw [firstDeliveries_concat]
    simp only [mem_ids_firstDeliveries]
    by_cases hm : m.id ∈ s.returned.map Message.id
    · rw [if_pos hm, unseen_seen hready hm]
      exact h.order
    · rw [if_neg hm, List.append_assoc, List.singleton_append, ← h.unseen_new hready hm]
      exact h.order
  · intro id p hp
    rw [List.map_append]
    rcases HashMap.lookup_of_insert hp with ⟨rfl, rfl⟩ | hp
    · exact ⟨rfl, List.mem_append_right _ (List.mem_singleton.mpr rfl)⟩
    · obtain ⟨hkey, hin⟩ := h.seen id p hp
      exact ⟨hkey, List.mem_append_left _ hin⟩

/-- What was returned for the first time was sent first. -/
theorem prefix_sent (h : s.InOrder) : firstDeliveries s.returned <+: s.sent :=
  ⟨_, h.order⟩

/-- Every call keeps the order. -/
theorem step (h : s.InOrder) (hok : s.queue.poisoned = false) {c : QueueCall π}
    (hadmits : s.Admits c) : (s.step limit c).Ordered := by
  cases c with
  | send id payload =>
    rw [step_send hok]
    exact h.send hadmits payload
  | ack id =>
    rw [step_ack hok]
    exact ⟨h.once, h.order, h.seen.erase id⟩
  | nack id =>
    obtain ⟨hseen, hsame⟩ := h.seen.nack id
    rw [step_nack hok]
    exact ⟨h.once, (congrArg (_ ++ ·) hsame).trans h.order, hseen⟩
  | requeueExpired now ids =>
    obtain ⟨hseen, hsame⟩ := h.seen.requeueExpired ids
    rw [step_requeueExpired hok]
    exact ⟨h.once, (congrArg (_ ++ ·) hsame).trans h.order, hseen⟩
  | tryDequeue now =>
    cases hready : s.queue.inner.ready with
    | nil =>
      rw [step_tryDequeue_nil hok hready]
      exact ⟨h.once, h.order, h.seen⟩
    | cons m ready =>
      cases hdeadline : instantAdd limit now s.queue.inner.timeout with
      | none =>
        rw [step_tryDequeue_late hok hready hdeadline]
        exact h.prefix_sent
      | some deadline =>
        rw [step_tryDequeue_cons hok hready hdeadline]
        exact h.dequeue hready deadline

end InOrder

/-- In every run the order is kept. -/
theorem ordered_of_run {maxRetries : U32} {timeoutSecs : U64}
    (h : Relation.ReflTransGen (Step limit) (new maxRetries timeoutSecs) s) : s.Ordered := by
  induction h with
  | refl => exact ⟨List.nodup_nil, rfl, nofun⟩
  | @tail s s' _ hstep ih =>
    obtain ⟨c, hadmits, rfl⟩ := hstep
    cases hok : s.queue.poisoned with
    | true =>
      rw [step_of_poisoned hok]
      exact ih
    | false =>
      unfold Ordered at ih
      rw [hok] at ih
      exact ih.step hok hadmits

/-- A message is sent without retries. -/
theorem retries_sent {maxRetries : U32} {timeoutSecs : U64}
    (h : Relation.ReflTransGen (Step limit) (new maxRetries timeoutSecs) s) :
    ∀ m ∈ s.sent, m.retries = 0 := by
  induction h with
  | refl => exact nofun
  | @tail s s' _ hstep ih =>
    obtain ⟨c, -, rfl⟩ := hstep
    have hsent : (s.step limit c).sent = s.sent ∨
        ∃ id payload, (s.step limit c).sent = s.sent ++ [.new id payload] := by
      cases c with
      | send id payload =>
        simp only [step]
        split
        · exact .inr ⟨id, payload, rfl⟩
        · exact .inl rfl
      | _ =>
        simp only [step]
        split <;> exact .inl rfl
    intro m hm
    rcases hsent with hsent | ⟨id, payload, hsent⟩
    · rw [hsent] at hm
      exact ih m hm
    · rw [hsent, List.mem_append, List.mem_singleton] at hm
      rcases hm with hm | rfl
      · exact ih m hm
      · rfl

/-- **First deliveries.**  In every run, the messages that `try_dequeue` has returned for the
first time are the first ones sent, in the order in which they were sent and without retries. -/
theorem first_deliveries_in_order {maxRetries : U32} {timeoutSecs : U64}
    (h : Relation.ReflTransGen (Step limit) (new maxRetries timeoutSecs) s) :
    firstDeliveries s.returned <+: s.sent ∧
      ∀ m ∈ firstDeliveries s.returned, m.retries = 0 := by
  have hfirst : firstDeliveries s.returned <+: s.sent := by
    have hordered := ordered_of_run h
    unfold Ordered at hordered
    split at hordered
    · exact hordered
    · exact hordered.prefix_sent
  exact ⟨hfirst, fun m hm => retries_sent h m (hfirst.subset hm)⟩

/-- Two messages, the first of which is returned twice. -/
theorem first_deliveries_in_order_twice :
    [Message.new "a" (), .new "b" ()] <+: [Message.new "a" (), .new "b" ()] ∧
      ∀ m ∈ [Message.new "a" (), .new "b" ()], m.retries = 0 :=
  @first_deliveries_in_order _ unixLimit
    ((((((new 3 30).step unixLimit (.send "a" ())).step unixLimit (.send "b" ())).step unixLimit
      (.tryDequeue 5)).step unixLimit (.nack "a")).step unixLimit (.tryDequeue 6)
      |>.step unixLimit (.tryDequeue 7)) 3 30 <|
    .tail (.tail (.tail (.tail (.tail (.single
      ⟨.send "a" (), List.not_mem_nil, rfl⟩) ⟨.send "b" (), show "b" ∉ ["a"] by decide, rfl⟩)
      ⟨.tryDequeue 5, trivial, rfl⟩) ⟨.nack "a", trivial, rfl⟩) ⟨.tryDequeue 6, trivial, rfl⟩)
      ⟨.tryDequeue 7, trivial, rfl⟩

end QueueRun

end Fasm
