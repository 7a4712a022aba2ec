import Vedruino.Lib.Runs
import Vedruino.Mqtt.Topics

/-!
# Delivery of messages

The event handler copies what an event carries and queues a call, and the callback task makes the calls one after another. A message that does not fit the receive buffer arrives in several events, of which only the first has the topic. The handler takes every event for a message of its own, so only messages that arrive in one event are delivered.
-/

namespace Vedruino.Mqtt

/-- An `MQTT_EVENT_DATA` event. -/
structure Event where
  topic : List UInt8
  data : List UInt8
  currentDataOffset : Nat
  totalDataLen : Nat

/-- `struct mqtt_callback_item`, with the memory of the copies. -/
structure CallbackItem (Cb : Type) where
  callback : Cb
  topic : List UInt8
  data : List UInt8
  dataSize : Nat

def cbTaskQueueLength : Nat := 10

variable {Cb : Type}

/-- What `mqtt_event_handler` queues for an event when no `malloc` fails. -/
def handleData (S : SortSearch (PkTopic Cb)) (subsTopics : List (PkTopic Cb)) (e : Event) : Option (CallbackItem Cb) :=
  let topicCopy := e.topic ++ [0]
  match findCallback S subsTopics (cStr topicCopy) with
  | none => none
  | some pair =>
    match pair.callback with
    | none => none
    | some callback => some ⟨callback, topicCopy, e.data ++ [0], e.data.length⟩

structure Delivery (Cb : Type) where
  pending : List Event
  queue : List (CallbackItem Cb)
  invoked : List (CallbackItem Cb)

/-- A step of the task of esp-mqtt, which runs the handler, or of the callback task. -/
inductive Task
  | handler | callback

/-- The handler waits while the queue is full, the callback task while it is empty. -/
def Delivery.step (S : SortSearch (PkTopic Cb)) (subsTopics : List (PkTopic Cb)) (s : Delivery Cb) :
    Task → Option (Delivery Cb)
  | .handler =>
    match s.pending with
    | [] => none
    | e :: es =>
      match handleData S subsTopics e with
      | none => some { s with pending := es }
      | some item =>
        if s.queue.length < cbTaskQueueLength then some { s with pending := es, queue := s.queue ++ [item] } else none
  | .callback =>
    match s.queue with
    | [] => none
    | item :: items => some { s with queue := items, invoked := s.invoked ++ [item] }

def delivery (S : SortSearch (PkTopic Cb)) (subsTopics : List (PkTopic Cb)) (events : List Event) :
    System (Delivery Cb) Task :=
  .ofStep (· = ⟨events, [], []⟩) (Delivery.step S subsTopics)

/-- A message as esp-mqtt hands it over: the part of the payload in the first event and the parts in later ones, which are not empty. -/
structure Message where
  topic : CStr
  first : List UInt8
  rest : List (List UInt8)
  rest_ne : ∀ part ∈ rest, part ≠ []

def Message.payload (m : Message) : List UInt8 := m.first ++ m.rest.flatten

/-- The later events of a message: they have no topic. -/
def restEvents (total : Nat) : Nat → List (List UInt8) → List Event
  | _, [] => []
  | off, part :: parts => ⟨[], part, off, total⟩ :: restEvents total (off + part.length) parts

def Message.events (m : Message) : List Event :=
  ⟨m.topic.bytes, m.first, 0, m.payload.length⟩ :: restEvents m.payload.length m.first.length m.rest

/-- The call is to a callback of the topic of the message, with the topic, the whole payload and its length. -/
def Delivers (topics : List (PkTopic Cb)) (m : Message) (item : CallbackItem Cb) : Prop :=
  (∃ p ∈ topics, p.name = m.topic ∧ p.callback = some item.callback) ∧ item.topic = m.topic.bytes ++ [0] ∧
    item.data = m.payload ++ [0] ∧ item.dataSize = m.payload.length

/-- The topic is in the table, with callbacks only. -/
def Registered (topics : List (PkTopic Cb)) (topic : CStr) : Prop :=
  (∃ p ∈ topics, p.name = topic) ∧ ∀ p ∈ topics, p.name = topic → p.callback.isSome = true

/-! ### Runs -/

section

variable {S : SortSearch (PkTopic Cb)} {subsTopics topics : List (PkTopic Cb)} {events : List Event}
  {s t : Delivery Cb}

/-- The calls made, those queued and those that the events to come will queue. -/
def Delivery.calls (S : SortSearch (PkTopic Cb)) (subsTopics : List (PkTopic Cb)) (s : Delivery Cb) :
    List (CallbackItem Cb) :=
  s.invoked ++ s.queue ++ s.pending.filterMap (handleData S subsTopics)

theorem Delivery.calls_step {l : Task} (h : s.step S subsTopics l = some t) :
    t.calls S subsTopics = s.calls S subsTopics := by
  obtain ⟨pending, queue, invoked⟩ := s
  cases l with
  | handler =>
    cases pending with
    | nil => cases h
    | cons e es =>
      simp only [Delivery.step] at h
      cases hitem : handleData S subsTopics e with
      | none =>
        rw [hitem] at h
        cases h
        simp [Delivery.calls, hitem]
      | some item =>
        rw [hitem] at h
        dsimp only at h
        split at h
        · cases h
          simp [Delivery.calls, hitem]
        · cases h
  | callback =>
    cases queue with
    | nil => cases h
    | cons item items =>
      cases h
      simp [Delivery.calls]

theorem Delivery.calls_of_reachable (h : (delivery S subsTopics events).Reachable s) :
    s.calls S subsTopics = events.filterMap (handleData S subsTopics) := by
  refine h.invariant (I := fun s => s.calls S subsTopics = events.filterMap (handleData S subsTopics)) ?_ ?_
  · rintro s rfl
    rfl
  · intro s l t hs _ hstep
    exact (Delivery.calls_step hstep).trans hs

/-- A run can go on until every event is handled and every call is made. -/
theorem Delivery.stuck_iff : (∀ l, s.step S subsTopics l = none) ↔ s.pending = [] ∧ s.queue = [] := by
  obtain ⟨pending, queue, invoked⟩ := s
  constructor
  · intro h
    have hqueue : queue = [] := by
      cases queue with
      | nil => rfl
      | cons item items => cases h .callback
    refine ⟨?_, hqueue⟩
    cases pending with
    | nil => rfl
    | cons e es =>
      have hhandler := h .handler
      simp only [Delivery.step, hqueue, List.length_nil] at hhandler
      split at hhandler
      · cases hhandler
      · rw [if_pos (show 0 < cbTaskQueueLength by decide)] at hhandler
        cases hhandler
  · rintro ⟨rfl, rfl⟩ l
    cases l <;> rfl

/-- The steps left: two for each event and one for each queued call. -/
def Delivery.left (s : Delivery Cb) : Nat := 2 * s.pending.length + s.queue.length

/-- No run goes on for ever. -/
theorem Delivery.left_step {l : Task} (h : s.step S subsTopics l = some t) : t.left < s.left := by
  obtain ⟨pending, queue, invoked⟩ := s
  cases l with
  | handler =>
    cases pending with
    | nil => cases h
    | cons e es =>
      simp only [Delivery.step] at h
      split at h
      · cases h
        simp only [Delivery.left, List.length_cons]
        omega
      · split at h
        · cases h
          simp only [Delivery.left, List.length_cons, List.length_append, List.length_nil]
          omega
        · cases h
  | callback =>
    cases queue with
    | nil => cases h
    | cons item items =>
      cases h
      simp only [Delivery.left, List.length_cons]
      omega

/-! ### Messages -/

theorem handleData_first (S : SortSearch (PkTopic Cb)) {topic : CStr} (hreg : Registered topics topic) (data : List UInt8)
    (off total : Nat) : ∃ item, handleData S (S.qsort topicPairCmp topics) ⟨topic.bytes, data, off, total⟩ = some item ∧
      (∃ p ∈ topics, p.name = topic ∧ p.callback = some item.callback) ∧ item.topic = topic.bytes ++ [0] ∧
      item.data = data ++ [0] ∧ item.dataSize = data.length := by
  obtain ⟨⟨p, hp, hname⟩, hcallbacks⟩ := hreg
  obtain ⟨q, hq, hqname, hfind⟩ := findCallback_of_mem S hp
  rw [hname] at hqname hfind
  obtain ⟨callback, hcallback⟩ := Option.isSome_iff_exists.1 (hcallbacks q hq hqname)
  refine ⟨⟨callback, topic.bytes ++ [0], data ++ [0], data.length⟩, ?_, ⟨q, hq, hqname, hcallback⟩, rfl, rfl, rfl⟩
  simp only [handleData, cStr_of_noZero, hfind, hcallback]

theorem Message.rest_eq_nil_iff (m : Message) : m.rest = [] ↔ m.first.length = m.payload.length := by
  rw [Message.payload, List.length_append]
  constructor
  · intro h
    rw [h]
    rfl
  · intro h
    have hflat : m.rest.flatten = [] := List.eq_nil_of_length_eq_zero (by omega)
    rw [List.eq_nil_iff_forall_not_mem]
    intro part hpart
    exact m.rest_ne part hpart (List.flatten_eq_nil_iff.1 hflat part hpart)

theorem delivers_iff (S : SortSearch (PkTopic Cb)) {ms : List Message} (hreg : ∀ m ∈ ms, Registered topics m.topic) :
    List.Forall₂ (Delivers topics) ms
        ((ms.flatMap Message.events).filterMap (handleData S (S.qsort topicPairCmp topics))) ↔
      ∀ m ∈ ms, m.rest = [] := by
  induction ms with
  | nil => simp
  | cons m ms ih =>
    obtain ⟨item, hitem, hcallback, htopic, hdata, hsize⟩ :=
      handleData_first S (hreg m List.mem_cons_self) m.first 0 m.payload.length
    have ih := ih fun m' hm' => hreg m' (List.mem_cons_of_mem _ hm')
    rw [List.flatMap_cons, Message.events, List.cons_append, List.filterMap_cons_some hitem, List.filterMap_append,
      List.forall₂_cons, List.forall_mem_cons]
    have hdelivers : Delivers topics m item ↔ m.rest = [] := by
      rw [m.rest_eq_nil_iff, ← hsize]
      constructor
      · exact fun h => h.2.2.2
      · intro h
        refine ⟨hcallback, htopic, ?_, h⟩
        have hrest := m.rest_eq_nil_iff.2 (hsize ▸ h)
        rw [hdata, Message.payload, hrest, List.flatten_nil, List.append_nil]
    rw [hdelivers]
    refine and_congr_right fun hrest => ?_
    rw [hrest, restEvents, List.filterMap_nil, List.nil_append]
    exact ih

/-- **Every message is delivered exactly where each arrives in one event.** This holds of every run that has gone on until nothing is left to do. -/
theorem delivered_iff (S : SortSearch (PkTopic Cb)) (accepted : BrokerReq → Bool) (old : List (PkTopic Cb))
    {ms : List Message} (hreg : ∀ m ∈ ms, Registered topics m.topic)
    (hs : (delivery S (pkMqttSetSubscribedTopics S accepted old topics).2.2 (ms.flatMap Message.events)).Reachable s)
    (hend : ∀ l, s.step S (pkMqttSetSubscribedTopics S accepted old topics).2.2 l = none) :
    List.Forall₂ (Delivers topics) ms s.invoked ↔ ∀ m ∈ ms, m.rest = [] := by
  obtain ⟨hpending, hqueue⟩ := Delivery.stuck_iff.1 hend
  have hcalls := Delivery.calls_of_reachable hs
  rw [Delivery.calls, hpending, hqueue, List.filterMap_nil, List.append_nil, List.append_nil] at hcalls
  rw [hcalls]
  exact delivers_iff S hreg

end

def oneTopic : List (PkTopic Nat) := [⟨⟨[0x74], by decide⟩, some 7, 0⟩]

theorem oneTopic_registered : Registered oneTopic ⟨[0x74], by decide⟩ := by
  refine ⟨⟨_, List.mem_singleton_self _, rfl⟩, ?_⟩
  intro p hp _
  rw [List.mem_singleton.1 hp]
  rfl

def wholeMessage : Message := ⟨⟨[0x74], by decide⟩, [0x61, 0x62], [], by simp⟩

def splitMessage : Message := ⟨⟨[0x74], by decide⟩, [0x61], [[0x62]], by simp⟩

def afterWhole : Delivery Nat := ⟨[], [], [⟨7, [0x74, 0], [0x61, 0x62, 0], 2⟩]⟩

def afterSplit : Delivery Nat := ⟨[], [], [⟨7, [0x74, 0], [0x61, 0], 1⟩]⟩

theorem delivered_wholeMessage : List.Forall₂ (Delivers oneTopic) [wholeMessage] afterWhole.invoked := by
  refine (delivered_iff (plainSortSearch (PkTopic Nat)) (fun _ => true) [] ?_
    (System.reachable_runSteps [.handler, .callback] (.init rfl) rfl) (Delivery.stuck_iff.2 ⟨rfl, rfl⟩)).2 ?_
  · exact List.forall_mem_singleton.2 oneTopic_registered
  · exact List.forall_mem_singleton.2 rfl

/-- Of the message in two events only the first part is delivered. -/
theorem not_delivered_splitMessage : ¬ ∀ (S : SortSearch (PkTopic Nat)) topics ms s,
    (∀ m ∈ ms, Registered topics m.topic) →
    (delivery S (pkMqttSetSubscribedTopics S (fun _ => true) [] topics).2.2 (ms.flatMap Message.events)).Reachable s →
    (∀ l, s.step S (pkMqttSetSubscribedTopics S (fun _ => true) [] topics).2.2 l = none) →
    List.Forall₂ (Delivers topics) ms s.invoked := by
  intro h
  have hdelivers := h (plainSortSearch _) oneTopic [splitMessage] afterSplit
    (List.forall_mem_singleton.2 oneTopic_registered)
    (System.reachable_runSteps [.handler, .handler, .callback] (.init rfl) rfl) (Delivery.stuck_iff.2 ⟨rfl, rfl⟩)
  rw [afterSplit, List.forall₂_cons] at hdelivers
  exact absurd hdelivers.1.2.2.2 (by decide)

end Vedruino.Mqtt
