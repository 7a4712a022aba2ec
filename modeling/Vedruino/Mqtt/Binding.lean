import Vedruino.Lib.Runs
import Vedruino.Mqtt.Topics

/-!
# The callback of a message

`find_callback` returns a pointer into the array of the caller and gives the mutex back, and the handler reads the callback through it twice later. A call of `pk_mqtt_set_subscribed_topics` that falls in between may sort the same array, and then the pointer is to another topic.
-/

namespace Vedruino.Mqtt

/-- Where the handler is: before `find_callback`, before it checks the callback it has found, or before it queues it. -/
inductive DataPc
  | idle
  | found (topic : CStr) (pair : Nat)
  | checked (topic : CStr) (pair : Nat)

def DataPc.held : DataPc → Option (CStr × Nat)
  | .idle => none
  | .found topic pair | .checked topic pair => some (topic, pair)

/-- A message with the callback that is queued for it. `tables` is no part of the item: the table at the lookup and those set while the handler held the pointer. -/
structure Queued (Cb : Type) where
  topic : CStr
  callback : Option Cb
  tables : List (List (PkTopic Cb))

/-- The callback is that of an entry with the name of the message. -/
def Queued.Bound {Cb : Type} (m : Queued Cb) : Prop := ∃ T ∈ m.tables, ∃ p ∈ T, p.name = m.topic ∧ p.callback = m.callback

/-- The memory by entries, and `subs_topics`. `tables` only records the tables since the last lookup. -/
structure Binding (Cb : Type) where
  mem : Nat → PkTopic Cb
  pairs : Nat
  size : Nat
  pc : DataPc
  tables : List (List (PkTopic Cb))
  queued : List (Queued Cb)

inductive BindingEvent
  | setSubscribedTopics (topics len : Nat) (accepted : BrokerReq → Bool)
  | findCallback (topic : CStr)
  /-- `pair->callback` is checked and the data is copied, if there is memory for it. -/
  | check (dataCopy : Bool)
  | send (sent : Bool)

variable {Cb : Type}

def entries (mem : Nat → PkTopic Cb) (base len : Nat) : List (PkTopic Cb) := (List.range len).map fun i => mem (base + i)

def writeEntries (mem : Nat → PkTopic Cb) (base : Nat) (xs : List (PkTopic Cb)) : Nat → PkTopic Cb := fun a =>
  if base ≤ a then xs[a - base]?.getD (mem a) else mem a

def Binding.table (s : Binding Cb) : List (PkTopic Cb) := entries s.mem s.pairs s.size

/-- The memory after `pk_mqtt_set_subscribed_topics` has sorted the array. -/
def Binding.sort (S : SortSearch (PkTopic Cb)) (s : Binding Cb) (topics len : Nat) (accepted : BrokerReq → Bool) :
    Nat → PkTopic Cb :=
  writeEntries s.mem topics (pkMqttSetSubscribedTopics S accepted s.table (entries s.mem topics len)).2.2

def Binding.step (S : SortSearch (PkTopic Cb)) (P : PtrSearch (PkTopic Cb)) (s : Binding Cb) :
    BindingEvent → Option (Binding Cb)
  | .setSubscribedTopics topics len accepted =>
    let mem := s.sort S topics len accepted
    some { s with mem, pairs := topics, size := len, tables := s.tables ++ [entries mem topics len] }
  | .findCallback topic =>
    match s.pc with
    | .idle =>
      let topicCopy := cStr (topic.bytes ++ [0])
      match P.bsearch topicPairCmp ⟨topicCopy, none, 0⟩ s.table with
      | none => some s
      | some i => some { s with pc := .found topic (s.pairs + i), tables := [s.table] }
    | _ => none
  | .check dataCopy =>
    match s.pc with
    | .found topic pair =>
      if (s.mem pair).callback.isSome = true ∧ dataCopy = true then some { s with pc := .checked topic pair }
      else some { s with pc := .idle }
    | _ => none
  | .send sent =>
    match s.pc with
    | .checked topic pair =>
      if sent then some { s with pc := .idle, queued := s.queued ++ [⟨topic, (s.mem pair).callback, s.tables⟩] }
      else some { s with pc := .idle }
    | _ => none

def Binding.Init (s : Binding Cb) : Prop := s.size = 0 ∧ s.pc = .idle ∧ s.queued = []

def bindings (S : SortSearch (PkTopic Cb)) (P : PtrSearch (PkTopic Cb)) : System (Binding Cb) BindingEvent :=
  .ofStep Binding.Init (Binding.step S P)

/-- While the handler holds a pointer, no call sorts an entry of another topic to it. -/
def KeepsPair (S : SortSearch (PkTopic Cb)) (s : Binding Cb) : BindingEvent → Prop
  | .setSubscribedTopics topics len accepted =>
    ∀ held ∈ s.pc.held, (s.sort S topics len accepted held.2).name = held.1
  | _ => True

instance (S : SortSearch (PkTopic Cb)) (s : Binding Cb) : DecidablePred (KeepsPair S s) := fun l => by
  cases l <;> unfold KeepsPair <;> infer_instance

/-! ### Arrays in memory -/

variable {mem : Nat → PkTopic Cb} {base len a : Nat} {xs : List (PkTopic Cb)}

theorem length_entries (mem : Nat → PkTopic Cb) (base len : Nat) : (entries mem base len).length = len := by
  rw [entries, List.length_map, List.length_range]

private theorem getElem?_entries {i : Nat} {p : PkTopic Cb} (h : (entries mem base len)[i]? = some p) : i < len ∧ mem (base + i) = p := by
  rw [entries, List.getElem?_map, Option.map_eq_some_iff] at h
  obtain ⟨j, hj, hp⟩ := h
  rw [List.getElem?_eq_some_iff] at hj
  obtain ⟨hlt, rfl⟩ := hj
  rw [List.length_range] at hlt
  rw [List.getElem_range] at hp
  exact ⟨hlt, hp⟩

private theorem mem_entries (hbase : base ≤ a) (ha : a < base + len) : mem a ∈ entries mem base len := by
  rw [entries, List.mem_map]
  refine ⟨a - base, List.mem_range.2 (by omega), ?_⟩
  rw [Nat.add_sub_cancel' hbase]

private theorem writeEntries_of_not_mem (ha : a < base ∨ base + xs.length ≤ a) : writeEntries mem base xs a = mem a := by
  rw [writeEntries]
  by_cases hbase : base ≤ a
  · rw [if_pos hbase, List.getElem?_eq_none (by omega), Option.getD_none]
  · rw [if_neg hbase]

private theorem writeEntries_add {i : Nat} {p : PkTopic Cb} (h : xs[i]? = some p) : writeEntries mem base xs (base + i) = p := by
  rw [writeEntries, if_pos (Nat.le_add_right base i), Nat.add_sub_cancel_left, h, Option.getD_some]

private theorem entries_writeEntries (mem : Nat → PkTopic Cb) (base : Nat) (xs : List (PkTopic Cb)) :
    entries (writeEntries mem base xs) base xs.length = xs := by
  apply List.ext_getElem?
  intro i
  by_cases hi : i < xs.length
  · rw [entries, List.getElem?_map, List.getElem?_range hi, Option.map_some,
      writeEntries_add (List.getElem?_eq_getElem hi), List.getElem?_eq_getElem hi]
  · rw [List.getElem?_eq_none (by rw [length_entries]; omega), List.getElem?_eq_none (by omega)]

/-! ### Runs -/

variable {S : SortSearch (PkTopic Cb)} {P : PtrSearch (PkTopic Cb)} {s t : Binding Cb}

/-- The table is sorted, what the handler points to is an entry of its topic, in a table since the lookup, and what is queued are callbacks of entries of their topics. -/
structure Binding.Inv (s : Binding Cb) : Prop where
  sorted : SortedBy topicPairCmp s.table
  held : ∀ held ∈ s.pc.held, (s.mem held.2).name = held.1 ∧ ∃ T ∈ s.tables, s.mem held.2 ∈ T
  queued : ∀ m ∈ s.queued, m.Bound

theorem not_mem_held_idle (held : CStr × Nat) : held ∉ DataPc.idle.held := fun h => nomatch h

theorem Binding.Init.inv (h : s.Init) : s.Inv := by
  obtain ⟨hsize, hpc, hqueued⟩ := h
  refine ⟨?_, ?_, ?_⟩
  · rw [table, hsize]
    exact List.Pairwise.nil
  · intro held hheld
    rw [hpc] at hheld
    exact absurd hheld (not_mem_held_idle held)
  · intro m hm
    rw [hqueued] at hm
    cases hm

theorem topicPairCmp_name {topic : CStr} {p : PkTopic Cb} :
    topicPairCmp ⟨cStr (topic.bytes ++ [0]), none, 0⟩ p = 0 ↔ p.name = topic := by
  rw [topicPairCmp, strcmp_eq_zero, cStr_of_noZero]
  exact eq_comm

/-- What `find_callback` points to is an entry of the table with the name. -/
theorem mem_table_of_bsearch {topic : CStr} {i : Nat}
    (hfind : P.bsearch topicPairCmp ⟨cStr (topic.bytes ++ [0]), none, 0⟩ s.table = some i) :
    s.mem (s.pairs + i) ∈ s.table ∧ (s.mem (s.pairs + i)).name = topic := by
  obtain ⟨p, hp, heq⟩ := P.bsearch_some _ _ _ _ hfind
  rw [(getElem?_entries hp).2]
  exact ⟨List.mem_of_getElem? hp, topicPairCmp_name.1 heq⟩

theorem findCallback_spec (h : s.Inv) {topic : CStr} (hstep : s.step S P (.findCallback topic) = some t) :
    (t.pc.held.isSome = true ↔ ∃ p ∈ s.table, p.name = topic) ∧
      ∀ held ∈ t.pc.held, t.mem held.2 ∈ s.table ∧ (t.mem held.2).name = topic := by
  have hfound := P.isSome_iff topicPairCmp_orders h.sorted ⟨cStr (topic.bytes ++ [0]), none, 0⟩
  simp only [topicPairCmp_name] at hfound
  rw [← hfound]
  rw [Binding.step] at hstep
  split at hstep
  next hpc =>
    dsimp only at hstep
    split at hstep
    next hnone =>
      cases hstep
      rw [hnone, hpc]
      exact ⟨Iff.rfl, fun held hheld => absurd hheld (not_mem_held_idle held)⟩
    next i hsome =>
      cases hstep
      rw [hsome]
      refine ⟨Iff.rfl, ?_⟩
      intro held hheld
      cases hheld
      exact mem_table_of_bsearch hsome
  next => cases hstep

theorem length_qsort_entries (mem : Nat → PkTopic Cb) (topics len : Nat) :
    (S.qsort topicPairCmp (entries mem topics len)).length = len := by
  rw [(S.qsort_perm _ _).length_eq, length_entries]

/-- What stands at an address after a sort is an entry of the new table or what stood there before. -/
theorem sort_mem (s : Binding Cb) (topics len : Nat) (accepted : BrokerReq → Bool) (a : Nat) :
    s.sort S topics len accepted a ∈ entries (s.sort S topics len accepted) topics len ∨
      s.sort S topics len accepted a = s.mem a := by
  by_cases hmem : topics ≤ a ∧ a < topics + len
  · exact .inl (mem_entries hmem.1 hmem.2)
  · rw [Binding.sort, pkMqttSetSubscribedTopics]
    apply Or.inr
    apply writeEntries_of_not_mem
    rw [length_qsort_entries]
    omega

/-- The table is sorted after `qsort`, whatever the memory held. -/
theorem sorted_entries_qsort (mem : Nat → PkTopic Cb) (topics len : Nat) : SortedBy topicPairCmp
    (entries (writeEntries mem topics (S.qsort topicPairCmp (entries mem topics len))) topics len) := by
  have htable := entries_writeEntries mem topics (S.qsort topicPairCmp (entries mem topics len))
  rw [length_qsort_entries] at htable
  rw [htable]
  exact S.qsort_sorted _ _ topicPairCmp_orders

theorem Binding.Inv.setSubscribedTopics {topics len : Nat} {accepted : BrokerReq → Bool} (h : s.Inv)
    (hl : KeepsPair S s (.setSubscribedTopics topics len accepted)) :
    Binding.Inv { s with
      mem := s.sort S topics len accepted, pairs := topics, size := len,
      tables := s.tables ++ [entries (s.sort S topics len accepted) topics len] } := by
  refine ⟨sorted_entries_qsort s.mem topics len, ?_, h.queued⟩
  intro held hheld
  refine ⟨hl held hheld, ?_⟩
  rcases sort_mem s topics len accepted held.2 with hnew | hold
  · exact ⟨_, List.mem_append_right _ (List.mem_singleton_self _), hnew⟩
  · obtain ⟨T, hT, hmem⟩ := (h.held held hheld).2
    rw [← hold] at hmem
    exact ⟨T, List.mem_append_left _ hT, hmem⟩

theorem Binding.Inv.idle (h : s.Inv) : Binding.Inv { s with pc := .idle } :=
  ⟨h.sorted, fun held hheld => absurd hheld (not_mem_held_idle held), h.queued⟩

theorem Binding.Inv.step {l : BindingEvent} (h : s.Inv) (hl : KeepsPair S s l) (hstep : s.step S P l = some t) : t.Inv := by
  cases l with
  | setSubscribedTopics topics len accepted =>
    cases hstep
    exact h.setSubscribedTopics hl
  | findCallback topic =>
    rw [Binding.step] at hstep
    split at hstep
    next =>
      dsimp only at hstep
      split at hstep
      next =>
        cases hstep
        exact h
      next i hsome =>
        cases hstep
        refine ⟨h.sorted, ?_, h.queued⟩
        intro held hheld
        cases hheld
        obtain ⟨hmem, hname⟩ := mem_table_of_bsearch hsome
        exact ⟨hname, _, List.mem_singleton_self _, hmem⟩
    next => cases hstep
  | check dataCopy =>
    rw [Binding.step] at hstep
    split at hstep
    next topic pair hpc =>
      split at hstep
      · cases hstep
        refine ⟨h.sorted, ?_, h.queued⟩
        have hheld := h.held
        rwa [hpc] at hheld
      · cases hstep
        exact h.idle
    next => cases hstep
  | send sent =>
    rw [Binding.step] at hstep
    split at hstep
    next topic pair hpc =>
      split at hstep
      · cases hstep
        refine ⟨h.sorted, h.idle.held, ?_⟩
        intro m hm
        rcases List.mem_append.1 hm with hm | hm
        · exact h.queued m hm
        · obtain rfl := List.mem_singleton.1 hm
          obtain ⟨hname, T, hT, hmem⟩ := h.held (topic, pair) (by rw [hpc]; rfl)
          exact ⟨T, hT, _, hmem, hname, rfl⟩
      · cases hstep
        exact h.idle
    next => cases hstep

/-- **While no call sorts an entry of another topic to a pointer that the handler holds, the search finds an entry exactly where the table has one of that name, and what is queued for a message is the callback of an entry with its name, of the table at its lookup or of one set since.** -/
theorem binding_of_keepsPair (hs : (bindings S P).ReachableUnder (KeepsPair S) s) :
    (∀ topic t, s.step S P (.findCallback topic) = some t →
      (t.pc.held.isSome = true ↔ ∃ p ∈ s.table, p.name = topic) ∧
        ∀ held ∈ t.pc.held, t.mem held.2 ∈ s.table ∧ (t.mem held.2).name = topic) ∧
    ∀ m ∈ s.queued, m.Bound := by
  have hinv : s.Inv := hs.invariant (fun _ => Binding.Init.inv) fun _ _ _ h hl hstep => h.step hl hstep
  exact ⟨fun _ _ hstep => findCallback_spec hinv hstep, hinv.queued⟩

theorem step_check {topic : CStr} {pair : Nat} (hpc : s.pc = .found topic pair) (hcallback : (s.mem pair).callback.isSome = true) :
    s.step S P (.check true) = some { s with pc := .checked topic pair } := by
  rw [Binding.step, hpc]
  exact if_pos ⟨hcallback, rfl⟩

theorem step_send {topic : CStr} {pair : Nat} (hpc : s.pc = .checked topic pair) : s.step S P (.send true) =
    some { s with pc := .idle, queued := s.queued ++ [⟨topic, (s.mem pair).callback, s.tables⟩] } := by
  rw [Binding.step, hpc]
  exact if_pos rfl

/-- After any other call, a handler that has memory goes on to queue the callback of an entry of another topic. The message is unbound then unless an entry of its own name has the same callback. -/
theorem misbound_of_not_keepsPair {topics len : Nat} {accepted : BrokerReq → Bool}
    (hstep : s.step S P (.setSubscribedTopics topics len accepted) = some t)
    (hl : ¬ KeepsPair S s (.setSubscribedTopics topics len accepted))
    (hcallback : ∀ held ∈ t.pc.held, (t.mem held.2).callback.isSome = true) :
    ∃ topic pair evs u, t.pc.held = some (topic, pair) ∧ System.runSteps (Binding.step S P) t evs = some u ∧
      u.queued = t.queued ++ [⟨topic, (t.mem pair).callback, t.tables⟩] ∧ (t.mem pair).name ≠ topic := by
  have hmoved : ¬ ∀ held ∈ t.pc.held, (t.mem held.2).name = held.1 := by
    cases hstep
    exact hl
  cases hpc : t.pc with
  | idle =>
    refine absurd (fun held hheld => ?_) hmoved
    rw [hpc] at hheld
    exact absurd hheld (not_mem_held_idle held)
  | found topic pair =>
    rw [hpc] at hmoved hcallback
    have hcheck := step_check (S := S) (P := P) hpc (hcallback _ rfl)
    have hsend := step_send (S := S) (P := P) (s := { t with pc := .checked topic pair }) rfl
    have hrun : System.runSteps (Binding.step S P) t [.check true, .send true] =
        some { t with pc := .idle, queued := t.queued ++ [⟨topic, (t.mem pair).callback, t.tables⟩] } := by
      rw [System.runSteps, hcheck, Option.bind_some, System.runSteps, hsend, Option.bind_some, System.runSteps]
    refine ⟨topic, pair, _, _, rfl, hrun, rfl, fun hname => hmoved fun held hheld => ?_⟩
    cases hheld
    exact hname
  | checked topic pair =>
    rw [hpc] at hmoved
    have hsend := step_send (S := S) (P := P) hpc
    have hrun : System.runSteps (Binding.step S P) t [.send true] =
        some { t with pc := .idle, queued := t.queued ++ [⟨topic, (t.mem pair).callback, t.tables⟩] } := by
      rw [System.runSteps, hsend, Option.bind_some, System.runSteps]
    refine ⟨topic, pair, _, _, rfl, hrun, rfl, fun hname => hmoved fun held hheld => ?_⟩
    cases hheld
    exact hname

/-- The topic `b` with the callback 1, then the topic `a` with the callback 2. -/
def twoTopics : Nat → PkTopic Nat
  | 0 => ⟨⟨[0x62], by decide⟩, some 1, 0⟩
  | _ => ⟨⟨[0x61], by decide⟩, some 2, 0⟩

def unbound : Binding Nat := ⟨twoTopics, 0, 0, .idle, [], []⟩

theorem unbound_init : unbound.Init := ⟨rfl, rfl, rfl⟩

def bindingStep : Binding Nat → BindingEvent → Option (Binding Nat) :=
  Binding.step (plainSortSearch _) (plainPtrSearch _)

/-- The array is set with both topics before the message on `b` is handled. -/
def setBefore : List BindingEvent :=
  [.setSubscribedTopics 0 2 fun _ => true, .findCallback ⟨[0x62], by decide⟩, .check true, .send true]

def afterSetBefore : Binding Nat :=
  (System.runSteps (System.guarded (KeepsPair (plainSortSearch _)) bindingStep) unbound setBefore).getD unbound

theorem afterSetBefore_reachable :
    (bindings (plainSortSearch _) (plainPtrSearch _)).ReachableUnder (KeepsPair (plainSortSearch _)) afterSetBefore :=
  System.reachableUnder_runSteps setBefore (.init unbound_init) rfl

theorem binding_setBefore : Queued.Bound ⟨⟨[0x62], by decide⟩, some 1, [afterSetBefore.table]⟩ :=
  (binding_of_keepsPair afterSetBefore_reachable).2 _ (List.mem_singleton_self _)

/-- The array is set with the topic `b` alone, and with both while the message on `b` is handled. -/
def setBetween : List BindingEvent :=
  [.setSubscribedTopics 0 1 fun _ => true, .findCallback ⟨[0x62], by decide⟩, .setSubscribedTopics 0 2 fun _ => true,
    .check true, .send true]

def afterSetBetween : Binding Nat := (System.runSteps bindingStep unbound setBetween).getD unbound

/-- No table, the first nor the second, has an entry of the topic `b` with the callback 2. -/
theorem not_binding_setBetween : ¬ ∀ (S : SortSearch (PkTopic Nat)) (P : PtrSearch (PkTopic Nat)) s, (bindings S P).Reachable s →
    ∀ m ∈ s.queued, m.Bound := by
  intro h
  have hqueued : ⟨⟨[0x62], by decide⟩, some 2, [entries twoTopics 0 1, afterSetBetween.table]⟩ ∈ afterSetBetween.queued :=
    List.mem_singleton_self _
  obtain ⟨T, hT, p, hp, hname, hcallback⟩ := h (plainSortSearch _) (plainPtrSearch _) afterSetBetween
    (System.reachable_runSteps setBetween (.init unbound_init) rfl) _ hqueued
  have hentries : ∀ T ∈ [entries twoTopics 0 1, afterSetBetween.table], ∀ p ∈ T, p.callback = some 2 → p.name.bytes = [0x61] := by
    decide
  have hbytes := hentries T hT p hp hcallback
  rw [hname] at hbytes
  cases hbytes

end Vedruino.Mqtt
