import Mathlib.Logic.Function.Basic
import Vedruino.Mqtt.Broker

/-!
# Connecting to the broker

`pk_mqtt_connect` creates a queue, a task, a mutex, an event group and a client, one after another, with their handles in globals, and waits for the first connection or for `PK_MQTT_FAIL_BIT`. `pk_mqtt_delete` deletes them. Between any two of their calls the event handler may run in the task of esp-mqtt, and the callback task may take what it has received.
-/

namespace Vedruino.Mqtt

/-- What `pk_mqtt_connect` creates. -/
inductive Kind
  | queue | task | mutex | group | client
  deriving DecidableEq, Repr

/-- The call that `pk_mqtt_connect` or `pk_mqtt_delete` makes next. In `pk_mqtt_delete` it is known whether `pk_mqtt_connect` has called it. -/
inductive ConnPc
  | idle | createQueue | createTask | createMutex | createGroup | clientInit | registerEvent | start | waitBits
  | disconnect (failed : Bool)
  | destroy (failed : Bool)
  /-- A null handle was used, which aborts the program or ends the calling task. -/
  | dead
  deriving DecidableEq, Repr

/-- The globals of `mqtt.c` and the objects of the system. -/
structure Conn where
  pc : ConnPc
  /-- `cb_task.queue.handle`, `cb_task.task.handle`, `topics_mutex`, `pk_mqtt_event_group` and `pk_mqtt_client`. -/
  handle : Kind → Option Nat
  handler : HandlerState
  /-- What the last call of `pk_mqtt_connect` has returned, until `pk_mqtt_delete`. -/
  result : Option Bool
  /-- The objects that exist. An object is named by the number of objects created before it. -/
  alive : List (Kind × Nat)
  made : Nat
  /-- The queue that a callback task waits at. -/
  waitsAt : Nat → Option Nat
  /-- The objects that it has created. -/
  created : List (Kind × Nat)
  /-- The disconnections since the call began or since a connection after that. -/
  since : Nat
  /-- `since` at each time that the handler has set `PK_MQTT_FAIL_BIT`. -/
  failedAt : List Nat

inductive ConnEvent
  /-- `pk_mqtt_connect` is called. -/
  | connect
  /-- `pk_mqtt_delete` is called. -/
  | delete
  /-- The next call of the function, and whether it succeeds. -/
  | go (ok : Bool)
  | event (e : EventId)
  /-- A callback task has made a call and waits for the next item. -/
  | receive (task : Nat)
  deriving DecidableEq, Repr

/-- The event makes the handler set `PK_MQTT_FAIL_BIT`. -/
def setsFail (confRetry : Int) (h : HandlerState) (e : EventId) : Bool :=
  (mqttEventHandler confRetry ⟨0, h.retry⟩ e).bits &&& pkMqttFailBit ≠ 0

/-- The disconnections counted after an event. -/
def nextSince (since : Nat) : EventId → Nat
  | .connected => 0
  | .disconnected => since + 1
  | _ => since

namespace Conn

variable (confRetry : Int) (s : Conn)

/-- A successful creation. -/
def create (k : Kind) (pc : ConnPc) : Conn :=
  { s with
    pc
    handle := Function.update s.handle k (some s.made)
    alive := s.alive ++ [(k, s.made)]
    made := s.made + 1
    created := s.created ++ [(k, s.made)] }

/-- A creation whose failure is not checked. -/
def createAny (ok : Bool) (k : Kind) (pc : ConnPc) : Conn :=
  if ok then s.create k pc else { s with pc, handle := Function.update s.handle k none }

def ret (res : Bool) : Conn := { s with pc := .idle, result := some res }

/-- The end of `pk_mqtt_delete`. A client that could not be destroyed stays. -/
def free (destroyed : Bool) : Conn :=
  { s with
    handle := fun _ => none
    alive := s.alive.filter fun o => s.handle o.1 ≠ some o.2 ∨ (o.1 = .client ∧ destroyed = false) }

def go (ok : Bool) : Option Conn :=
  match s.pc with
  | .idle | .dead => none
  | .createQueue =>
    if ok then some (s.create .queue .createTask)
    else some { s.ret false with handle := Function.update s.handle .queue none }
  | .createTask =>
    if ok then
      some { s.create .task .createMutex with waitsAt := Function.update s.waitsAt s.made (s.handle .queue) }
    else some (s.ret false)
  | .createMutex => some (s.createAny ok .mutex .createGroup)
  | .createGroup => some { s.createAny ok .group .clientInit with handler := { s.handler with bits := 0 } }
  | .clientInit =>
    if ok then some (s.create .client .registerEvent)
    else some { s.ret false with handle := Function.update s.handle .client none }
  | .registerEvent => some (if ok then { s with pc := .start } else s.ret false)
  | .start => some (if ok then { s with pc := .waitBits } else s.ret false)
  | .waitBits =>
    if s.handle .group = none then some { s with pc := .dead }
    else if s.handler.bits &&& pkMqttConnectedBit ≠ 0 then some (s.ret true)
    else if s.handler.bits &&& pkMqttFailBit ≠ 0 then some { s with pc := .disconnect true }
    else none
  | .disconnect failed => some { s with pc := .destroy failed }
  | .destroy failed =>
    if ∃ k ∈ [Kind.queue, .task, .mutex, .group], s.handle k = none then some { s with pc := .dead }
    else some { s.free ok with pc := .idle, result := if failed then some false else none }

def step : ConnEvent → Option Conn
  | .connect => if s.pc = .idle then some { s with pc := .createQueue, result := none, created := [], since := 0 } else none
  | .delete => if s.pc = .idle then some { s with pc := .disconnect false, result := none } else none
  | .go ok => s.go ok
  | .event e =>
    -- the bits cannot be set without an event group
    if s.handle .group = none then none
    else
      let since := nextSince s.since e
      some
        { s with
          handler := mqttEventHandler confRetry s.handler e
          since
          failedAt := if setsFail confRetry s.handler e then s.failedAt ++ [since] else s.failedAt }
  | .receive task =>
    if (.task, task) ∈ s.alive then some { s with waitsAt := Function.update s.waitsAt task (s.handle .queue) } else none

/-- Nothing has been created, and the static variables are zero. -/
structure Init : Prop where
  pc : s.pc = .idle
  handle : ∀ k, s.handle k = none
  retry : s.handler.retry = 0
  result : s.result = none
  alive : s.alive = []
  created : s.created = []
  since : s.since = 0
  failedAt : s.failedAt = []

end Conn

def unconnected : Conn where
  pc := .idle
  handle := fun _ => none
  handler := ⟨0, 0⟩
  result := none
  alive := []
  made := 0
  waitsAt := fun _ => none
  created := []
  since := 0
  failedAt := []

theorem unconnected_init : unconnected.Init := ⟨rfl, fun _ => rfl, rfl, rfl, rfl, rfl, rfl, rfl⟩

def connections (confRetry : Int) : System Conn ConnEvent := .ofStep Conn.Init (Conn.step confRetry)

end Vedruino.Mqtt
