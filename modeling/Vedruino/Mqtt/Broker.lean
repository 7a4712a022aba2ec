import Mathlib.Data.Finset.Basic
import Mathlib.Data.Finset.Insert
import Vedruino.Lib.Runs
import Vedruino.Mqtt.Topics

/-!
# The subscriptions at the broker

`pk_mqtt_set_subscribed_topics` takes the broker from the table before to the new one. The broker forgets the subscriptions when the connection is lost, and the event handler asks for nothing when it is back, so the broker has the table afterwards only where the requests that the client sends again make the whole of it.
-/

namespace Vedruino.Mqtt

/-- The events of esp-mqtt other than `MQTT_EVENT_DATA`. -/
inductive EventId
  | connected | disconnected | subscribed | unsubscribed | published | error | other
  deriving DecidableEq, Repr

def pkMqttConnectedBit : Nat := 1 <<< 0
def pkMqttDisconnectedBit : Nat := 1 <<< 1
def pkMqttPublishedBit : Nat := 1 <<< 2
def pkMqttSubscribedBit : Nat := 1 <<< 3
def pkMqttUnsubscribedBit : Nat := 1 <<< 4
def pkMqttFailBit : Nat := 1 <<< 6

/-- The event group and the static counter of the handler. -/
structure HandlerState where
  bits : Nat
  retry : Int
  deriving DecidableEq, Repr

/-- `mqtt_event_handler`, which makes no request of the broker. -/
def mqttEventHandler (confRetry : Int) (s : HandlerState) : EventId → HandlerState
  | .connected => { s with bits := s.bits ||| pkMqttConnectedBit }
  | .disconnected =>
    if s.retry < confRetry then ⟨s.bits ||| pkMqttDisconnectedBit, s.retry + 1⟩
    else { s with bits := s.bits ||| pkMqttDisconnectedBit ||| pkMqttFailBit }
  | .subscribed => { s with bits := s.bits ||| pkMqttSubscribedBit }
  | .unsubscribed => { s with bits := s.bits ||| pkMqttUnsubscribedBit }
  | .published => { s with bits := s.bits ||| pkMqttPublishedBit }
  | .error | .other => s

deriving instance DecidableEq for BrokerReq

/-- The broker serves a request of the client. -/
def serve (subs : Finset CStr) : BrokerReq → Finset CStr
  | .unsubscribe name => subs.erase name
  | .subscribe name _ => insert name subs

def BrokerReq.answer : BrokerReq → EventId
  | .unsubscribe _ => .unsubscribed
  | .subscribe _ _ => .subscribed

/-- The table, the client of esp-mqtt and the broker. `outbox` are the requests accepted and not answered, of which the broker has served the first `served`. -/
structure Session (Cb : Type) where
  subsTopics : List (PkTopic Cb)
  handler : HandlerState
  connected : Bool
  outbox : List BrokerReq
  served : Nat
  broker : Finset CStr

inductive SessionEvent (Cb : Type)
  | setSubscribedTopics (topics : List (PkTopic Cb))
  | serve
  | answer
  /-- The client sends the requests of `kept` again after it has reconnected. -/
  | lose (kept : List BrokerReq)
  | reconnect

variable {Cb : Type}

def Session.step (S : SortSearch (PkTopic Cb)) (confRetry : Int) (s : Session Cb) : SessionEvent Cb → Option (Session Cb)
  | .setSubscribedTopics topics =>
    let (_, reqs, table) := pkMqttSetSubscribedTopics S (fun _ => true) s.subsTopics topics
    some { s with subsTopics := table, outbox := s.outbox ++ reqs }
  | .serve =>
    match s.connected, s.outbox.drop s.served with
    | true, req :: _ => some { s with served := s.served + 1, broker := Mqtt.serve s.broker req }
    | _, _ => none
  | .answer =>
    match s.outbox, s.served with
    | req :: reqs, n + 1 =>
      some { s with outbox := reqs, served := n, handler := mqttEventHandler confRetry s.handler req.answer }
    | _, _ => none
  | .lose kept =>
    if s.connected = true ∧ kept.Sublist s.outbox then
      some { s with
        handler := mqttEventHandler confRetry s.handler .disconnected
        connected := false, outbox := kept, served := 0, broker := ∅ }
    else none
  | .reconnect =>
    if s.connected = true then none
    else some { s with handler := mqttEventHandler confRetry s.handler .connected, connected := true }

def Session.Init (s : Session Cb) : Prop :=
  s.subsTopics = [] ∧ s.connected = false ∧ s.outbox = [] ∧ s.served = 0 ∧ s.broker = ∅

def sessions (S : SortSearch (PkTopic Cb)) (confRetry : Int) : System (Session Cb) (SessionEvent Cb) :=
  .ofStep Session.Init (Session.step S confRetry)

def Session.names (s : Session Cb) : Finset CStr := (s.subsTopics.map PkTopic.name).toFinset

/-- What the client sends again subscribes to the whole table. -/
def Restores (s : Session Cb) : SessionEvent Cb → Prop
  | .lose kept => kept.foldl serve ∅ = s.names
  | _ => True

instance (s : Session Cb) : DecidablePred (Restores s) := fun l => by
  cases l <;> unfold Restores <;> infer_instance

/-! ### What the requests make of the broker -/

theorem mem_foldl_unsubscribe {name : CStr} (topics : List (PkTopic Cb)) (subs : Finset CStr) :
    name ∈ (topics.map fun p => BrokerReq.unsubscribe p.name).foldl serve subs ↔
      name ∈ subs ∧ ∀ p ∈ topics, p.name ≠ name := by
  induction topics generalizing subs with
  | nil => simp
  | cons p topics ih =>
    rw [List.map_cons, List.foldl_cons, ih, serve, Finset.mem_erase, List.forall_mem_cons]
    tauto

private theorem mem_foldl_subscribe {name : CStr} (topics : List (PkTopic Cb)) (subs : Finset CStr) :
    name ∈ (topics.map fun p => BrokerReq.subscribe p.name p.qos).foldl serve subs ↔
      name ∈ subs ∨ ∃ p ∈ topics, p.name = name := by
  induction topics generalizing subs with
  | nil => simp
  | cons p topics ih =>
    rw [List.map_cons, List.foldl_cons, ih, serve, Finset.mem_insert, List.exists_mem_cons_iff]
    tauto

private theorem mem_names {s : Session Cb} {name : CStr} : name ∈ s.names ↔ ∃ p ∈ s.subsTopics, p.name = name := by
  rw [Session.names, List.mem_toFinset, List.mem_map]

variable {S : SortSearch (PkTopic Cb)} {confRetry : Int} {s t : Session Cb}

/-- The requests of a call, served on top of the old table, make the new one. -/
theorem foldl_setSubscribedTopics (old topics : List (PkTopic Cb)) {subs : Finset CStr}
    (hsubs : ∀ name, name ∈ subs ↔ ∃ p ∈ old, p.name = name) (name : CStr) :
    name ∈ (pkMqttSetSubscribedTopics S (fun _ => true) old topics).2.1.foldl serve subs ↔
      ∃ p ∈ (pkMqttSetSubscribedTopics S (fun _ => true) old topics).2.2, p.name = name := by
  rw [pkMqttSetSubscribedTopics, List.foldl_append, mem_foldl_subscribe, mem_foldl_unsubscribe, hsubs]
  constructor
  · rintro (⟨⟨p, hp, hname⟩, hnone⟩ | h)
    · exact absurd hname (hnone p hp)
    · exact h
  · exact .inr

/-! ### Runs -/

/-- The requests not served yet make the table of what the broker has. -/
structure Session.Inv (s : Session Cb) : Prop where
  served_le : s.served ≤ s.outbox.length
  settles : (s.outbox.drop s.served).foldl serve s.broker = s.names

theorem Session.Init.inv (h : s.Init) : s.Inv := by
  obtain ⟨htopics, -, houtbox, hserved, hbroker⟩ := h
  refine ⟨by rw [hserved]; exact Nat.zero_le _, ?_⟩
  rw [names, houtbox, hserved, hbroker, htopics]
  rfl

theorem Session.Inv.step {l : SessionEvent Cb} (h : s.Inv) (hl : Restores s l) (hstep : s.step S confRetry l = some t) :
    t.Inv := by
  cases l with
  | setSubscribedTopics topics =>
    cases hstep
    refine ⟨h.served_le.trans (by rw [List.length_append]; exact Nat.le_add_right _ _), ?_⟩
    dsimp only
    rw [List.drop_append_of_le_length h.served_le, List.foldl_append, h.settles]
    ext name
    rw [mem_names]
    exact foldl_setSubscribedTopics s.subsTopics topics (fun _ => mem_names) name
  | serve =>
    rw [Session.step] at hstep
    split at hstep
    next req reqs _ hdrop =>
      cases hstep
      have hlt : s.served < s.outbox.length := by
        by_contra hge
        rw [List.drop_of_length_le (Nat.le_of_not_lt hge)] at hdrop
        cases hdrop
      refine ⟨hlt, ?_⟩
      have hsettles := h.settles
      rw [hdrop, List.foldl_cons] at hsettles
      dsimp only
      rw [← List.drop_drop, hdrop, List.drop_one, List.tail_cons, hsettles]
      rfl
    next => cases hstep
  | answer =>
    rw [Session.step] at hstep
    split at hstep
    next req reqs n houtbox hserved =>
      cases hstep
      obtain ⟨hle, hsettles⟩ := h
      rw [houtbox, hserved] at hle hsettles
      exact ⟨Nat.le_of_succ_le_succ hle, hsettles⟩
    next => cases hstep
  | lose kept =>
    rw [Session.step, Option.ite_none_right_eq_some] at hstep
    obtain ⟨-, hstep⟩ := hstep
    cases hstep
    exact ⟨Nat.zero_le _, hl⟩
  | reconnect =>
    rw [Session.step, Option.ite_none_left_eq_some] at hstep
    obtain ⟨-, hstep⟩ := hstep
    cases hstep
    exact ⟨h.served_le, h.settles⟩

/-- **Where every loss of the connection is made good by what the client sends again, the broker has the topics of the table whenever it has served all that was sent.** -/
theorem subscriptions_survive (hs : (sessions S confRetry).ReachableUnder Restores s)
    (hserved : s.served = s.outbox.length) : s.broker = s.names := by
  have hinv : s.Inv := hs.invariant (fun _ => Session.Init.inv) fun _ _ _ h hl hstep => h.step hl hstep
  have hsettles := hinv.settles
  rwa [hserved, List.drop_length] at hsettles

theorem runSteps_serve {n : Nat} (hconnected : s.connected = true) (hn : s.served + n = s.outbox.length) :
    System.runSteps (Session.step S confRetry) s (List.replicate n .serve) =
      some { s with served := s.outbox.length, broker := (s.outbox.drop s.served).foldl serve s.broker } := by
  induction n generalizing s with
  | zero =>
    rw [Nat.add_zero] at hn
    rw [List.replicate_zero, System.runSteps, hn, List.drop_length, List.foldl_nil, ← hn]
  | succ n ih =>
    have hlt : s.served < s.outbox.length := by omega
    have hstep : s.step S confRetry .serve =
        some { s with served := s.served + 1, broker := serve s.broker s.outbox[s.served] } := by
      rw [Session.step, hconnected, List.drop_eq_getElem_cons hlt]
    have hnext : s.served + 1 + n = s.outbox.length := by omega
    rw [List.replicate_succ, System.runSteps, hstep, Option.bind_some,
      ih (s := { s with served := s.served + 1, broker := serve s.broker s.outbox[s.served] }) hconnected hnext,
      List.drop_eq_getElem_cons hlt, List.foldl_cons]

/-- After any other loss, the broker has served all that was sent and has not the topics of the table. -/
theorem subscriptions_lost {kept : List BrokerReq} (hstep : s.step S confRetry (.lose kept) = some t)
    (hkept : ¬ Restores s (.lose kept)) : ∃ u,
      System.runSteps (Session.step S confRetry) t (.reconnect :: List.replicate kept.length .serve) = some u ∧
        u.connected = true ∧ u.served = u.outbox.length ∧ u.broker ≠ u.names := by
  rw [Session.step, Option.ite_none_right_eq_some] at hstep
  obtain ⟨-, hstep⟩ := hstep
  cases hstep
  rw [System.runSteps, Session.step, if_neg Bool.false_ne_true, Option.bind_some, runSteps_serve rfl (Nat.zero_add _)]
  exact ⟨_, rfl, rfl, rfl, hkept⟩

private theorem noZero_a : (0 : UInt8) ∉ [(0x61 : UInt8)] := by decide

def topicA : PkTopic Unit := ⟨⟨[0x61], noZero_a⟩, some (), 0⟩

def notConnected : Session Unit := ⟨[], ⟨0, 0⟩, false, [], 0, ∅⟩

theorem notConnected_init : notConnected.Init := ⟨rfl, rfl, rfl, rfl, rfl⟩

def sessionStep : Session Unit → SessionEvent Unit → Option (Session Unit) := Session.step (plainSortSearch _) 3

/-- The connection is lost before the broker has served the request, which is sent again. -/
def sentAgain : List (SessionEvent Unit) :=
  [.reconnect, .setSubscribedTopics [topicA], .lose [.subscribe topicA.name 0], .reconnect, .serve]

def afterSentAgain : Session Unit :=
  (System.runSteps (System.guarded Restores sessionStep) notConnected sentAgain).getD notConnected

theorem afterSentAgain_reachable : (sessions (plainSortSearch _) 3).ReachableUnder Restores afterSentAgain :=
  System.reachableUnder_runSteps sentAgain (.init notConnected_init) rfl

theorem subscriptions_survive_sentAgain : afterSentAgain.broker = afterSentAgain.names :=
  subscriptions_survive afterSentAgain_reachable rfl

/-- The connection is lost after the broker has answered. -/
def answered : List (SessionEvent Unit) :=
  [.reconnect, .setSubscribedTopics [topicA], .serve, .answer, .lose [], .reconnect]

def afterAnswered : Session Unit := (System.runSteps sessionStep notConnected answered).getD notConnected

theorem not_subscriptions_survive_answered : ¬ ∀ (S : SortSearch (PkTopic Unit)) confRetry s, (sessions S confRetry).Reachable s →
    s.connected = true → s.served = s.outbox.length → s.broker = s.names := by
  intro h
  have hbroker := h (plainSortSearch _) 3 afterAnswered
    (System.reachable_runSteps answered (.init notConnected_init) rfl) rfl rfl
  revert hbroker
  decide

end Vedruino.Mqtt
