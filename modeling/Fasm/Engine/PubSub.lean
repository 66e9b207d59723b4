import Fasm.Lib.HashMap
import Mathlib.Data.Set.Card
import Mathlib.Logic.Function.Basic

/-!
# Publish and subscribe

`pubsub.rs`: a publish copies its payload to the private queue of every execution that is
subscribed to the topic.  Private queues are shared by reference: a subscriber holds a handle,
and what the handles point to is part of the state.

Who ought to receive what is said by an `Audience`, which knows neither queues nor lists of
subscribers.
-/

namespace Fasm

variable {π ρ : Type}

/-! ## Private queues -/

/-- What the handles in `ρ` of private queues point to. -/
abbrev PrivateQueues (ρ π : Type) : Type := ρ → List π

namespace PrivateQueue

variable [DecidableEq ρ]

/-- `PrivateQueue::send`. -/
def send (q : ρ) (payload : π) (qs : PrivateQueues ρ π) : PrivateQueues ρ π :=
  Function.update qs q (qs q ++ [payload])

/-- `PrivateQueue::try_recv`. -/
def tryRecv (q : ρ) (qs : PrivateQueues ρ π) : Option π × PrivateQueues ρ π :=
  match qs q with
  | [] => (none, qs)
  | payload :: rest => (some payload, Function.update qs q rest)

end PrivateQueue

/-! ## Topics -/

/-- `Subscriber`. -/
structure Subscriber (ρ : Type) where
  executionId : String
  queue : ρ

/-- `TopicInner`. -/
structure TopicInner (ρ : Type) where
  subscribers : List (Subscriber ρ)

namespace TopicInner

/-- `TopicInner::default`. -/
def default : TopicInner ρ := ⟨[]⟩

/-- `publish`. -/
def publish [DecidableEq ρ] (payload : π) (qs : PrivateQueues ρ π) (t : TopicInner ρ) :
    PrivateQueues ρ π :=
  t.subscribers.foldl (fun qs sub => PrivateQueue.send sub.queue payload qs) qs

/-- `unsubscribe`. -/
def unsubscribe (executionId : String) (t : TopicInner ρ) : TopicInner ρ :=
  ⟨t.subscribers.filter fun s => s.executionId ≠ executionId⟩

/-- `subscribe`: a stale entry of the execution goes first. -/
def subscribe (executionId : String) (q : ρ) (t : TopicInner ρ) : TopicInner ρ :=
  ⟨t.subscribers.filter (fun s => s.executionId ≠ executionId) ++ [⟨executionId, q⟩]⟩

/-- `subscriber_count`. -/
def subscriberCount (t : TopicInner ρ) : Nat := t.subscribers.length

end TopicInner

/-- `PubSubRegistry`. -/
abbrev PubSubRegistry (ρ : Type) : Type := HashMap String (TopicInner ρ)

namespace PubSubRegistry

/-- `create_topic`. -/
def createTopic (topic : String) (g : PubSubRegistry ρ) : PubSubRegistry ρ :=
  g.insert topic ((g.lookup topic).getD .default)

/-- `publish`: the number of subscribers, and the queues after it. -/
def publish [DecidableEq ρ] (topic : String) (payload : π) (g : PubSubRegistry ρ)
    (qs : PrivateQueues ρ π) : Nat × PrivateQueues ρ π :=
  match g.lookup topic with
  | some t => (t.subscriberCount, t.publish payload qs)
  | none => (0, qs)

/-- `subscribe`. -/
def subscribe (topic executionId : String) (q : ρ) (g : PubSubRegistry ρ) : PubSubRegistry ρ :=
  g.insert topic (((g.lookup topic).getD .default).subscribe executionId q)

/-- `unsubscribe_all`. -/
def unsubscribeAll (executionId : String) (g : PubSubRegistry ρ) : PubSubRegistry ρ :=
  HashMap.mapValues (TopicInner.unsubscribe executionId) g

/-- The subscribers of a topic; a topic that does not exist has none. -/
def subscribers (g : PubSubRegistry ρ) (topic : String) : List (Subscriber ρ) :=
  ((g.lookup topic).getD .default).subscribers

/-- Subscribers after each operation. -/
theorem subscribers_createTopic (g : PubSubRegistry ρ) (topic topic' : String) :
    subscribers (createTopic topic g) topic' = subscribers g topic' := by
  unfold subscribers createTopic
  by_cases h : topic' = topic
  · subst h
    rw [Finmap.lookup_insert, Option.getD_some]
  · rw [Finmap.lookup_insert_of_ne _ h]

theorem subscribers_subscribe_self (g : PubSubRegistry ρ) (topic executionId : String) (q : ρ) :
    subscribers (subscribe topic executionId q g) topic =
      (subscribers g topic).filter (fun s => s.executionId ≠ executionId) ++
        [⟨executionId, q⟩] := by
  unfold subscribers subscribe
  rw [Finmap.lookup_insert, Option.getD_some]
  rfl

theorem subscribers_subscribe_of_ne (g : PubSubRegistry ρ) {topic topic' : String}
    (h : topic' ≠ topic) (executionId : String) (q : ρ) :
    subscribers (subscribe topic executionId q g) topic' = subscribers g topic' := by
  unfold subscribers subscribe
  rw [Finmap.lookup_insert_of_ne _ h]

theorem subscribers_unsubscribeAll (g : PubSubRegistry ρ) (executionId topic : String) :
    subscribers (unsubscribeAll executionId g) topic =
      (subscribers g topic).filter fun s => s.executionId ≠ executionId := by
  unfold subscribers unsubscribeAll
  rw [HashMap.lookup_mapValues]
  cases g.lookup topic <;> rfl

/-- A publish reaches the subscribers, in their order. -/
theorem publish_eq [DecidableEq ρ] (topic : String) (payload : π) (g : PubSubRegistry ρ)
    (qs : PrivateQueues ρ π) : publish topic payload g qs =
      ((subscribers g topic).length, TopicInner.publish payload qs ⟨subscribers g topic⟩) := by
  unfold publish subscribers
  cases g.lookup topic <;> rfl

end PubSubRegistry

/-! ## Runs -/

/-- A call of an execution. -/
inductive PubSubCall (π : Type) where
  | createTopic (topic : String)
  | subscribe (topic executionId : String)
  | unsubscribeAll (executionId : String)
  | publish (topic : String) (payload : π)
  | tryRecv (executionId : String)

/-- The registry, the private queues, and what each execution has received so far. -/
structure PubSub (ρ π : Type) where
  registry : PubSubRegistry ρ
  queues : PrivateQueues ρ π
  received : String → List π

namespace PubSub

/-- No topics, and empty queues. -/
def new : PubSub ρ π := ⟨∅, fun _ => [], fun _ => []⟩

/-- A call, when an execution `id` owns the private queue `own id`. -/
def step [DecidableEq ρ] (own : String → ρ) (s : PubSub ρ π) : PubSubCall π → PubSub ρ π
  | .createTopic topic => { s with registry := s.registry.createTopic topic }
  | .subscribe topic id => { s with registry := s.registry.subscribe topic id (own id) }
  | .unsubscribeAll id => { s with registry := s.registry.unsubscribeAll id }
  | .publish topic payload =>
    { s with queues := (PubSubRegistry.publish topic payload s.registry s.queues).2 }
  | .tryRecv id =>
    { s with
      queues := (PrivateQueue.tryRecv (own id) s.queues).2,
      received := Function.update s.received id
        (s.received id ++ (PrivateQueue.tryRecv (own id) s.queues).1.toList) }

/-- A sequence of calls. -/
def run [DecidableEq ρ] (own : String → ρ) (calls : List (PubSubCall π)) : PubSub ρ π :=
  calls.foldl (step own) new

end PubSub

/-- Who is subscribed to which topic, and what has been published for whom. -/
structure Audience (π : Type) where
  subscribed : String → String → Bool
  due : String → List π

namespace Audience

/-- Nobody is subscribed to anything. -/
def new : Audience π := ⟨fun _ _ => false, fun _ => []⟩

/-- What a call makes of it. -/
def step (a : Audience π) : PubSubCall π → Audience π
  | .subscribe topic id =>
    { a with subscribed := fun topic' id' =>
        decide (topic' = topic ∧ id' = id) || a.subscribed topic' id' }
  | .unsubscribeAll id =>
    { a with subscribed := fun topic' id' => decide (id' ≠ id) && a.subscribed topic' id' }
  | .publish topic payload =>
    { a with due := fun id =>
        if a.subscribed topic id then a.due id ++ [payload] else a.due id }
  | .createTopic _ | .tryRecv _ => a

/-- What a sequence of calls makes of it. -/
def run (calls : List (PubSubCall π)) : Audience π := calls.foldl step new

end Audience

/-! ## Delivery -/

/-- The registry subscribes whom the audience says, each once and with its own queue, and what
an execution has received or will receive is what is due to it. -/
structure PubSub.Serves (own : String → ρ) (s : PubSub ρ π) (a : Audience π) : Prop where
  once : ∀ topic, ((s.registry.subscribers topic).map Subscriber.executionId).Nodup
  owned : ∀ topic, ∀ sub ∈ s.registry.subscribers topic, sub.queue = own sub.executionId
  subscribed : ∀ topic id, a.subscribed topic id = true ↔
    id ∈ (s.registry.subscribers topic).map Subscriber.executionId
  due : ∀ id, s.received id ++ s.queues (own id) = a.due id

namespace PubSub.Serves

variable {own : String → ρ} {s : PubSub ρ π} {a : Audience π}

/-- The queues of the subscribers of a topic. -/
theorem queues_eq (h : s.Serves own a) (topic : String) :
    (s.registry.subscribers topic).map Subscriber.queue =
      ((s.registry.subscribers topic).map Subscriber.executionId).map own := by
  rw [List.map_map]
  exact List.map_congr_left fun sub hsub => h.owned topic sub hsub

/-- They are distinct. -/
theorem nodup_queues (h : s.Serves own a) (hown : Function.Injective own) (topic : String) :
    ((s.registry.subscribers topic).map Subscriber.queue).Nodup := by
  rw [h.queues_eq]
  exact (h.once topic).map hown

/-- Whose queues they are. -/
theorem mem_queues (h : s.Serves own a) (hown : Function.Injective own) (topic id : String) :
    own id ∈ (s.registry.subscribers topic).map Subscriber.queue ↔
      a.subscribed topic id = true := by
  rw [h.queues_eq, List.mem_map_of_injective hown, h.subscribed]

/-- The identifiers that a filter by identifier leaves. -/
theorem mem_ids_filter (subs : List (Subscriber ρ)) (id id' : String) :
    id' ∈ (subs.filter fun s => s.executionId ≠ id).map Subscriber.executionId ↔
      id' ≠ id ∧ id' ∈ subs.map Subscriber.executionId := by
  constructor
  · intro h
    obtain ⟨sub, hsub, rfl⟩ := List.mem_map.mp h
    obtain ⟨hmem, hne⟩ := List.mem_filter.mp hsub
    exact ⟨of_decide_eq_true hne, List.mem_map_of_mem hmem⟩
  · rintro ⟨hne, h⟩
    obtain ⟨sub, hsub, rfl⟩ := List.mem_map.mp h
    exact List.mem_map_of_mem (List.mem_filter.mpr ⟨hsub, decide_eq_true hne⟩)

/-- A filter leaves no identifier twice. -/
theorem once_filter (h : s.Serves own a) (topic id : String) :
    (((s.registry.subscribers topic).filter fun s => s.executionId ≠ id).map
      Subscriber.executionId).Nodup :=
  (h.once topic).sublist (List.filter_sublist.map _)

end PubSub.Serves

variable [DecidableEq ρ]

/-- What `send` does to a queue. -/
theorem PrivateQueue.send_self (q : ρ) (payload : π) (qs : PrivateQueues ρ π) :
    send q payload qs q = qs q ++ [payload] :=
  Function.update_self q _ qs

theorem PrivateQueue.send_of_ne {q q' : ρ} (h : q' ≠ q) (payload : π) (qs : PrivateQueues ρ π) :
    send q payload qs q' = qs q' :=
  Function.update_of_ne h _ qs

/-- What was received and what is in the queue do not change together. -/
theorem PrivateQueue.tryRecv_append (q : ρ) (qs : PrivateQueues ρ π) :
    (tryRecv q qs).1.toList ++ (tryRecv q qs).2 q = qs q := by
  unfold tryRecv
  cases h : qs q with
  | nil => exact h
  | cons payload rest =>
    show payload :: Function.update qs q rest q = payload :: rest
    rw [Function.update_self]

theorem PrivateQueue.tryRecv_of_ne {q q' : ρ} (h : q' ≠ q) (qs : PrivateQueues ρ π) :
    (tryRecv q qs).2 q' = qs q' := by
  unfold tryRecv
  split
  · rfl
  · exact Function.update_of_ne h _ qs

/-- A publish puts the payload into each queue once. -/
theorem TopicInner.publish_apply {subs : List (Subscriber ρ)}
    (h : (subs.map Subscriber.queue).Nodup) (payload : π) (qs : PrivateQueues ρ π) (q : ρ) :
    publish payload qs ⟨subs⟩ q =
      if q ∈ subs.map Subscriber.queue then qs q ++ [payload] else qs q := by
  induction subs generalizing qs with
  | nil => rfl
  | cons sub subs ih =>
    rw [List.map_cons, List.nodup_cons] at h
    show publish payload (PrivateQueue.send sub.queue payload qs) ⟨subs⟩ q = _
    rw [ih h.2, List.map_cons]
    by_cases hq : q = sub.queue
    · subst hq
      rw [if_neg h.1, if_pos List.mem_cons_self, PrivateQueue.send_self]
    · rw [PrivateQueue.send_of_ne hq]
      simp only [List.mem_cons, hq, false_or]

namespace PubSub.Serves

variable {own : String → ρ} {s : PubSub ρ π} {a : Audience π}

/-- A new subscription, or one that is renewed. -/
theorem subscribe (h : s.Serves own a) (topic id : String) :
    (s.step own (.subscribe topic id)).Serves own (a.step (.subscribe topic id)) := by
  refine ⟨?_, ?_, ?_, h.due⟩
  · intro topic'
    by_cases ht : topic' = topic
    · subst ht
      simp only [step, PubSubRegistry.subscribers_subscribe_self, List.map_append]
      rw [List.nodup_append]
      refine ⟨h.once_filter topic' id, List.nodup_singleton _, ?_⟩
      intro id' hid' id'' hid''
      rw [List.mem_singleton.mp hid'']
      exact ((mem_ids_filter _ _ _).mp hid').1
    · simp only [step, PubSubRegistry.subscribers_subscribe_of_ne _ ht]
      exact h.once topic'
  · intro topic' sub hsub
    by_cases ht : topic' = topic
    · subst ht
      simp only [step, PubSubRegistry.subscribers_subscribe_self, List.mem_append,
        List.mem_singleton] at hsub
      rcases hsub with hsub | rfl
      · exact h.owned topic' sub (List.mem_filter.mp hsub).1
      · rfl
    · simp only [step, PubSubRegistry.subscribers_subscribe_of_ne _ ht] at hsub
      exact h.owned topic' sub hsub
  · intro topic' id'
    by_cases ht : topic' = topic
    · subst ht
      simp only [step, Audience.step, PubSubRegistry.subscribers_subscribe_self, List.map_append,
        List.mem_append, mem_ids_filter, ← h.subscribed, List.map_singleton, List.mem_singleton,
        true_and, Bool.or_eq_true, decide_eq_true_eq]
      by_cases hid : id' = id
      · exact ⟨fun _ => .inr hid, fun _ => .inl hid⟩
      · constructor
        · exact fun hor => .inl ⟨hid, hor.resolve_left hid⟩
        · exact fun hor => .inr (hor.resolve_right hid).2
    · simp only [step, Audience.step, PubSubRegistry.subscribers_subscribe_of_ne _ ht, ht,
        false_and, decide_false, Bool.false_or]
      exact h.subscribed topic' id'

/-- The end of an execution. -/
theorem unsubscribeAll (h : s.Serves own a) (id : String) :
    (s.step own (.unsubscribeAll id)).Serves own (a.step (.unsubscribeAll id)) := by
  refine ⟨?_, ?_, ?_, h.due⟩
  · intro topic
    simp only [step, PubSubRegistry.subscribers_unsubscribeAll]
    exact h.once_filter topic id
  · intro topic sub hsub
    simp only [step, PubSubRegistry.subscribers_unsubscribeAll] at hsub
    exact h.owned topic sub (List.mem_filter.mp hsub).1
  · intro topic id'
    simp only [step, Audience.step, PubSubRegistry.subscribers_unsubscribeAll, mem_ids_filter,
      ← h.subscribed, Bool.and_eq_true, decide_eq_true_eq]

/-- Every subscriber gets the payload. -/
theorem publish (h : s.Serves own a) (hown : Function.Injective own) (topic : String)
    (payload : π) :
    (s.step own (.publish topic payload)).Serves own (a.step (.publish topic payload)) := by
  refine ⟨h.once, h.owned, h.subscribed, ?_⟩
  intro id
  simp only [step, Audience.step, PubSubRegistry.publish_eq]
  rw [TopicInner.publish_apply (h.nodup_queues hown topic)]
  simp only [h.mem_queues hown]
  split
  · rw [← List.append_assoc, h.due]
  · exact h.due id

/-- A payload moves from the queue to what was received. -/
theorem tryRecv (h : s.Serves own a) (hown : Function.Injective own) (id : String) :
    (s.step own (.tryRecv id)).Serves own (a.step (.tryRecv id)) := by
  refine ⟨h.once, h.owned, h.subscribed, ?_⟩
  intro id'
  simp only [step, Audience.step]
  by_cases hid : id' = id
  · subst hid
    rw [Function.update_self, List.append_assoc, PrivateQueue.tryRecv_append, h.due]
  · rw [Function.update_of_ne hid, PrivateQueue.tryRecv_of_ne (fun heq => hid (hown heq)), h.due]

/-- Every call keeps the registry and the audience in step. -/
theorem step (h : s.Serves own a) (hown : Function.Injective own) (c : PubSubCall π) :
    (s.step own c).Serves own (a.step c) := by
  cases c with
  | createTopic topic =>
    refine ⟨?_, ?_, ?_, h.due⟩
    all_goals simp only [PubSub.step, Audience.step, PubSubRegistry.subscribers_createTopic]
    · exact h.once
    · exact h.owned
    · exact h.subscribed
  | subscribe topic id => exact h.subscribe topic id
  | unsubscribeAll id => exact h.unsubscribeAll id
  | publish topic payload => exact h.publish hown topic payload
  | tryRecv id => exact h.tryRecv hown id

/-- The queues that a publish has changed are those of the subscribers. -/
theorem changed_eq (h : s.Serves own a) (hown : Function.Injective own) (topic : String)
    (payload : π) :
    { q | (PubSubRegistry.publish topic payload s.registry s.queues).2 q ≠ s.queues q } =
      ↑((s.registry.subscribers topic).map Subscriber.queue).toFinset := by
  ext q
  rw [List.coe_toFinset, PubSubRegistry.publish_eq]
  show TopicInner.publish payload s.queues ⟨_⟩ q ≠ s.queues q ↔ q ∈ List.map _ _
  rw [TopicInner.publish_apply (h.nodup_queues hown topic)]
  split
  · rename_i hq
    exact iff_of_true (by simp) hq
  · rename_i hq
    exact iff_of_false (by simp) hq

end PubSub.Serves

namespace PubSub

/-- A run serves its audience. -/
theorem serves_run {own : String → ρ} (hown : Function.Injective own)
    (calls : List (PubSubCall π)) : (run own calls).Serves own (Audience.run calls) := by
  induction calls using List.reverseRecOn with
  | nil =>
    refine ⟨fun topic => ?_, fun topic sub hsub => ?_, fun topic id => ?_, fun id => rfl⟩
    · exact List.nodup_nil
    · cases hsub
    · exact iff_of_false Bool.false_ne_true List.not_mem_nil
  | append_singleton calls c ih =>
    unfold run Audience.run
    rw [List.foldl_append, List.foldl_append]
    exact ih.step hown c

/-- **Fan-out.**  After every sequence of calls, what an execution has received and what is in
its queue are together the payloads published to topics it was subscribed to, in order; and
`publish` returns the number of queues that it has changed. -/
theorem fan_out_exact {own : String → ρ} (hown : Function.Injective own)
    (calls : List (PubSubCall π)) :
    (∀ id, (run own calls).received id ++ (run own calls).queues (own id) =
      (Audience.run calls).due id) ∧
    ∀ topic payload,
      (PubSubRegistry.publish topic payload (run own calls).registry (run own calls).queues).1 =
        { q | (PubSubRegistry.publish topic payload (run own calls).registry
          (run own calls).queues).2 q ≠ (run own calls).queues q }.ncard := by
  have hserves := serves_run hown calls
  refine ⟨hserves.due, ?_⟩
  intro topic payload
  rw [hserves.changed_eq hown, Set.ncard_coe_finset,
    List.toFinset_card_of_nodup (hserves.nodup_queues hown topic), List.length_map,
    PubSubRegistry.publish_eq]

/-- An execution that subscribes twice, and misses what is published after its end. -/
theorem fan_out_exact_resubscribed :
    (run id [PubSubCall.subscribe "news" "e", .subscribe "news" "e", .publish "news" 1,
      .tryRecv "e", .publish "news" 2, .unsubscribeAll "e", .publish "news" 3]).received "e" ++
    (run id [PubSubCall.subscribe "news" "e", .subscribe "news" "e", .publish "news" 1,
      .tryRecv "e", .publish "news" 2, .unsubscribeAll "e", .publish "news" 3]).queues "e" =
      [1, 2] :=
  (fan_out_exact Function.injective_id [PubSubCall.subscribe "news" "e", .subscribe "news" "e",
    .publish "news" 1, .tryRecv "e", .publish "news" 2, .unsubscribeAll "e",
    .publish "news" 3]).1 "e"

end PubSub

end Fasm
