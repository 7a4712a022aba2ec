import Vedruino.Lib.Runs
import Vedruino.Mqtt.Delivery

/-!
# The memory of the copies

The event handler allocates a copy of the topic and one of the data, the queue takes both over with the item, and the callback task frees them after the call. Two paths of the code lose blocks: the handler returns without freeing the topic when there is no memory for the data, and `pk_mqtt_delete` deletes the queue and the task with the items they hold.
-/

namespace Vedruino.Mqtt

abbrev Block := Nat

/-- What was allocated, in the order of the calls, and what was freed. The block of an allocation is its number. -/
structure Heap where
  allocated : Nat
  freed : List Block
  deriving DecidableEq, Repr

/-- `malloc`, which may fail. -/
def Heap.malloc (h : Heap) (succeeds : Bool) : Option Block × Heap :=
  if succeeds then (some h.allocated, { h with allocated := h.allocated + 1 }) else (none, h)

def Heap.free (h : Heap) (b : Block) : Heap := { h with freed := h.freed ++ [b] }

/-- An item of the callback queue with the blocks of its copies. -/
structure OwnedItem (Cb : Type) where
  item : CallbackItem Cb
  topic : Block
  data : Block

def OwnedItem.blocks {Cb : Type} (i : OwnedItem Cb) : List Block := [i.topic, i.data]

/-- What the calls of the handler come to: the allocations and `xQueueSend`. -/
structure Outcomes where
  topicCopy : Bool
  dataCopy : Bool
  sent : Bool
  deriving DecidableEq, Repr

variable {Cb : Type}

/-- The case `MQTT_EVENT_DATA` of `mqtt_event_handler`: the heap afterwards and the item that is queued. -/
def mqttEventData (S : SortSearch (PkTopic Cb)) (subsTopics : List (PkTopic Cb)) (e : Event) (o : Outcomes) (h : Heap) :
    Heap × Option (OwnedItem Cb) :=
  match h.malloc o.topicCopy with
  | (none, h) => (h, none)
  | (some topicBlock, h) =>
    let topicCopy := e.topic ++ [0]
    match findCallback S subsTopics (cStr topicCopy) with
    | none => (h.free topicBlock, none)
    | some pair =>
      match pair.callback with
      | none => (h.free topicBlock, none)
      | some callback =>
        match h.malloc o.dataCopy with
        -- the topic is not freed here
        | (none, h) => (h, none)
        | (some dataBlock, h) =>
          let args : OwnedItem Cb := ⟨⟨callback, topicCopy, e.data ++ [0], e.data.length⟩, topicBlock, dataBlock⟩
          if o.sent then (h, some args) else ((h.free args.data).free args.topic, none)

/-- The queue and the task of the callbacks, which `pk_mqtt_delete` deletes; `running` is the item whose callback runs. -/
structure CbTask (Cb : Type) where
  heap : Heap
  alive : Bool
  queue : List (OwnedItem Cb)
  running : Option (OwnedItem Cb)

inductive CbEvent (Cb : Type)
  /-- The handler gets an event while the table is `subsTopics`. -/
  | data (subsTopics : List (PkTopic Cb)) (e : Event) (o : Outcomes)
  | receive
  | finish
  | delete

/-- `xQueueSend` succeeds only where the item fits. -/
def CbTask.step (S : SortSearch (PkTopic Cb)) (s : CbTask Cb) : CbEvent Cb → Option (CbTask Cb)
  | .data subsTopics e o =>
    if s.alive = false then none
    else
      match mqttEventData S subsTopics e o s.heap with
      | (h, none) => some { s with heap := h }
      | (h, some args) =>
        if s.queue.length < cbTaskQueueLength then some { s with heap := h, queue := s.queue ++ [args] } else none
  | .receive =>
    match s.alive, s.running, s.queue with
    | true, none, args :: items => some { s with queue := items, running := some args }
    | _, _, _ => none
  | .finish =>
    match s.running with
    | none => none
    | some args => some { s with heap := (s.heap.free args.data).free args.topic, running := none }
  | .delete => if s.alive = false then none else some { s with alive := false, queue := [], running := none }

def CbTask.Init (s : CbTask Cb) : Prop := s.heap = ⟨0, []⟩ ∧ s.alive = true ∧ s.queue = [] ∧ s.running = none

def cbTasks (S : SortSearch (PkTopic Cb)) : System (CbTask Cb) (CbEvent Cb) := .ofStep CbTask.Init (CbTask.step S)

/-- The blocks of the items that are queued and of the one whose callback runs. -/
def CbTask.owned (s : CbTask Cb) : List Block := s.queue.flatMap OwnedItem.blocks ++ s.running.toList.flatMap OwnedItem.blocks

/-- The handler gets memory for the data where it has for the topic and a callback is found. -/
def GetsData (S : SortSearch (PkTopic Cb)) (subsTopics : List (PkTopic Cb)) (e : Event) (o : Outcomes) : Prop :=
  o.topicCopy = true → ((findCallback S subsTopics (cStr (e.topic ++ [0]))).bind PkTopic.callback).isSome = true → o.dataCopy = true

instance (S : SortSearch (PkTopic Cb)) (subsTopics : List (PkTopic Cb)) (e : Event) (o : Outcomes) :
    Decidable (GetsData S subsTopics e o) := inferInstanceAs (Decidable (_ → _ → _))

/-- The data is copied whenever the topic is, and the task is deleted while it has nothing to do. -/
def LosesNothing (S : SortSearch (PkTopic Cb)) (s : CbTask Cb) : CbEvent Cb → Prop
  | .data subsTopics e o => GetsData S subsTopics e o
  | .delete => s.queue = [] ∧ s.running = none
  | .receive | .finish => True

instance (S : SortSearch (PkTopic Cb)) (s : CbTask Cb) : DecidablePred (LosesNothing S s) := fun l => by
  cases l with
  | data subsTopics e o => exact inferInstanceAs (Decidable (GetsData S subsTopics e o))
  | delete =>
    have hqueue : Decidable (s.queue = []) := decidable_of_iff (s.queue.isEmpty = true) List.isEmpty_iff
    have hrunning : Decidable (s.running = none) := decidable_of_iff (s.running.isNone = true) Option.isNone_iff_eq_none
    exact inferInstanceAs (Decidable (_ ∧ _))
  | receive | finish => exact inferInstanceAs (Decidable True)

/-- The blocks that are allocated and not freed are those of the items, and no block is freed twice. -/
structure CbTask.Accounted (s : CbTask Cb) : Prop where
  live_iff : ∀ b, b < s.heap.allocated ∧ b ∉ s.heap.freed ↔ b ∈ s.owned
  freed_lt : ∀ b ∈ s.heap.freed, b < s.heap.allocated
  freed_once : s.heap.freed.Nodup
  owned_once : s.owned.Nodup

/-! ### The ways out of the handler -/

/-- What the handler does with the blocks it allocates, if it loses none. -/
inductive DataExit (h : Heap) : Heap × Option (OwnedItem Cb) → Prop
  | noTopic : DataExit h (h, none)
  | noCallback : DataExit h (⟨h.allocated + 1, h.freed ++ [h.allocated]⟩, none)
  | notSent : DataExit h (⟨h.allocated + 2, h.freed ++ [h.allocated + 1] ++ [h.allocated]⟩, none)
  | queued (item : CallbackItem Cb) : DataExit h (⟨h.allocated + 2, h.freed⟩, some ⟨item, h.allocated, h.allocated + 1⟩)

variable {S : SortSearch (PkTopic Cb)} {subsTopics : List (PkTopic Cb)} {e : Event} {o : Outcomes}

private theorem mqttEventData_exit (hgets : GetsData S subsTopics e o) (h : Heap) : DataExit h (mqttEventData S subsTopics e o h) := by
  rw [mqttEventData, Heap.malloc]
  cases htopic : o.topicCopy with
  | false => exact .noTopic
  | true =>
    rw [if_pos rfl]
    dsimp only
    cases hfind : findCallback S subsTopics (cStr (e.topic ++ [0])) with
    | none => exact .noCallback
    | some pair =>
      dsimp only
      cases hcallback : pair.callback with
      | none => exact .noCallback
      | some callback =>
        have hdata : o.dataCopy = true := hgets htopic (by rw [hfind, Option.bind_some, hcallback]; rfl)
        rw [Heap.malloc, if_pos hdata]
        cases hsent : o.sent with
        | false => exact .notSent
        | true => exact .queued _

private theorem mqttEventData_lost (hgets : ¬ GetsData S subsTopics e o) (h : Heap) :
    mqttEventData S subsTopics e o h = ({ h with allocated := h.allocated + 1 }, none) := by
  rw [GetsData, Classical.not_imp, Classical.not_imp, Option.isSome_iff_exists] at hgets
  obtain ⟨htopic, ⟨callback, hcallback⟩, hdata⟩ := hgets
  obtain ⟨pair, hfind, hcallback⟩ := Option.bind_eq_some_iff.1 hcallback
  rw [mqttEventData, Heap.malloc, if_pos htopic]
  dsimp only
  rw [hfind]
  dsimp only
  rw [hcallback]
  dsimp only
  rw [Heap.malloc, if_neg hdata]

/-! ### Runs -/

variable {s t : CbTask Cb}

theorem OwnedItem.count_blocks (i : OwnedItem Cb) (b : Block) : i.blocks.count b = [i.topic].count b + [i.data].count b := by
  rw [← List.count_append]
  rfl

/-- Every block allocated is freed or in an item, once. -/
theorem CbTask.accounted_iff : s.Accounted ↔ (s.heap.freed ++ s.owned).Perm (List.range s.heap.allocated) := by
  constructor
  · intro h
    have hdisjoint : ∀ b ∈ s.heap.freed, b ∉ s.owned := fun b hb howned => ((h.live_iff b).2 howned).2 hb
    rw [List.perm_ext_iff_of_nodup (List.nodup_append.2 ⟨h.freed_once, h.owned_once, fun b hb c hc hbc =>
      hdisjoint b hb (hbc ▸ hc)⟩) List.nodup_range]
    intro b
    rw [List.mem_append, List.mem_range, ← h.live_iff b]
    have hlt := h.freed_lt b
    tauto
  · intro h
    have hnodup := h.nodup_iff.2 List.nodup_range
    obtain ⟨hfreed, howned, hdisjoint⟩ := List.nodup_append.1 hnodup
    have hmem : ∀ b, b ∈ s.heap.freed ∨ b ∈ s.owned ↔ b < s.heap.allocated := fun b => by
      rw [← List.mem_append, h.mem_iff, List.mem_range]
    refine ⟨?_, fun b hb => (hmem b).1 (.inl hb), hfreed, howned⟩
    intro b
    rw [← hmem b]
    have hne := hdisjoint b
    constructor
    · rintro ⟨hb | hb, hnot⟩
      · exact absurd hb hnot
      · exact hb
    · intro hb
      exact ⟨.inr hb, fun hb' => hne hb' b hb rfl⟩

theorem CbTask.Init.accounted (h : s.Init) : s.Accounted := by
  obtain ⟨hheap, -, hqueue, hrunning⟩ := h
  rw [accounted_iff, owned, hheap, hqueue, hrunning]
  exact List.Perm.refl _

theorem CbTask.Accounted.step {l : CbEvent Cb} (h : s.Accounted) (hl : LosesNothing S s l) (hstep : s.step S l = some t) :
    t.Accounted := by
  rw [CbTask.accounted_iff, List.perm_iff_count] at h ⊢
  cases l with
  | data subsTopics e o =>
    have hexit := mqttEventData_exit hl s.heap
    rw [CbTask.step, Option.ite_none_left_eq_some] at hstep
    obtain ⟨-, hstep⟩ := hstep
    generalize mqttEventData S subsTopics e o s.heap = r at hexit hstep
    cases hexit with
    | noTopic =>
      cases hstep
      exact h
    | noCallback | notSent =>
      cases hstep
      intro b
      have hcount := h b
      simp only [CbTask.owned, List.count_append, List.range_succ] at hcount ⊢
      omega
    | queued item =>
      dsimp only at hstep
      rw [Option.ite_none_right_eq_some] at hstep
      obtain ⟨-, hstep⟩ := hstep
      cases hstep
      intro b
      have hcount := h b
      simp only [CbTask.owned, List.flatMap_append, List.flatMap_singleton, OwnedItem.count_blocks, List.count_append,
        List.range_succ] at hcount ⊢
      omega
  | receive =>
    rw [CbTask.step] at hstep
    split at hstep
    next args items _ hrunning hqueue =>
      cases hstep
      intro b
      have hcount := h b
      simp only [CbTask.owned, hrunning, hqueue, Option.toList_none, Option.toList_some, List.flatMap_cons, List.flatMap_nil,
        List.append_nil, List.count_append] at hcount ⊢
      omega
    next => cases hstep
  | finish =>
    rw [CbTask.step] at hstep
    split at hstep
    next => cases hstep
    next args hrunning =>
      cases hstep
      intro b
      have hcount := h b
      simp only [CbTask.owned, hrunning, Option.toList_none, Option.toList_some, List.flatMap_cons, List.flatMap_nil,
        List.append_nil, OwnedItem.count_blocks, Heap.free, List.count_append] at hcount ⊢
      omega
  | delete =>
    rw [CbTask.step, Option.ite_none_left_eq_some] at hstep
    obtain ⟨-, hstep⟩ := hstep
    cases hstep
    obtain ⟨hqueue, hrunning⟩ := hl
    rwa [CbTask.owned, hqueue, hrunning] at h

/-- **In every run that gets memory for the data whenever it has a copy of the topic and that deletes the task only while it has nothing to do, the blocks allocated and not freed are those of the items, and each is freed once.** -/
theorem payloads_accounted (hs : (cbTasks S).ReachableUnder (LosesNothing S) s) : s.Accounted :=
  hs.invariant (fun _ => CbTask.Init.accounted) fun _ _ _ h hl hstep => h.step hl hstep

/-- Any other step loses a block. -/
theorem payloads_lost {l : CbEvent Cb} (h : s.Accounted) (hl : ¬ LosesNothing S s l) (hstep : s.step S l = some t) :
    ¬ t.Accounted := by
  intro ht
  cases l with
  | data subsTopics e o =>
    have hlost := mqttEventData_lost hl s.heap
    rw [CbTask.step, Option.ite_none_left_eq_some, hlost] at hstep
    obtain ⟨-, hstep⟩ := hstep
    cases hstep
    have howned := (ht.live_iff s.heap.allocated).1
      ⟨Nat.lt_succ_self _, fun hfreed => Nat.lt_irrefl _ (h.freed_lt _ hfreed)⟩
    exact Nat.lt_irrefl _ ((h.live_iff s.heap.allocated).2 howned).1
  | receive => exact hl trivial
  | finish => exact hl trivial
  | delete =>
    rw [CbTask.step, Option.ite_none_left_eq_some] at hstep
    obtain ⟨-, hstep⟩ := hstep
    cases hstep
    have hnone : ∀ b, b ∉ s.owned := by
      intro b hb
      have howned := (ht.live_iff b).1 ((h.live_iff b).2 hb)
      exact List.not_mem_nil howned
    apply hl
    cases hqueue : s.queue with
    | cons args items => exact absurd (by simp [CbTask.owned, hqueue, OwnedItem.blocks]) (hnone args.topic)
    | nil =>
      cases hrunning : s.running with
      | some args => exact absurd (by simp [CbTask.owned, hrunning, OwnedItem.blocks]) (hnone args.topic)
      | none => exact ⟨hqueue, hrunning⟩

def idleTask : CbTask Nat := ⟨⟨0, []⟩, true, [], none⟩

theorem idleTask_init : idleTask.Init := ⟨rfl, rfl, rfl, rfl⟩

def cbStep : CbTask Nat → CbEvent Nat → Option (CbTask Nat) := CbTask.step (plainSortSearch _)

/-- One message is called back while another is queued and a third overflows. -/
def callbacks : List (CbEvent Nat) :=
  [.data oneTopic ⟨[0x74], [0x61], 0, 1⟩ ⟨true, true, true⟩, .data oneTopic ⟨[0x74], [0x62], 0, 1⟩ ⟨true, true, true⟩,
    .receive, .data oneTopic ⟨[0x74], [0x63], 0, 1⟩ ⟨true, true, false⟩, .finish]

def afterCallbacks : CbTask Nat :=
  (System.runSteps (System.guarded (LosesNothing (plainSortSearch _)) cbStep) idleTask callbacks).getD idleTask

theorem afterCallbacks_reachable :
    (cbTasks (plainSortSearch (PkTopic Nat))).ReachableUnder (LosesNothing (plainSortSearch _)) afterCallbacks :=
  System.reachableUnder_runSteps callbacks (.init idleTask_init) rfl

theorem payloads_accounted_callbacks : 2 < afterCallbacks.heap.allocated ∧ 2 ∉ afterCallbacks.heap.freed :=
  ((payloads_accounted afterCallbacks_reachable).live_iff 2).2 (by decide)

/-- There is memory for the topic and none for the data. -/
def noData : CbTask Nat := (cbStep idleTask (.data oneTopic ⟨[0x74], [0x61], 0, 1⟩ ⟨true, false, true⟩)).getD idleTask

theorem not_payloads_accounted_noData : ¬ ∀ (S : SortSearch (PkTopic Nat)) s, (cbTasks S).Reachable s → s.Accounted := by
  intro h
  have haccounted := h (plainSortSearch _) noData
    (System.reachable_runSteps [.data oneTopic ⟨[0x74], [0x61], 0, 1⟩ ⟨true, false, true⟩] (.init idleTask_init) rfl)
  have hlive := (haccounted.live_iff 0).1 (by decide)
  revert hlive
  decide

end Vedruino.Mqtt
