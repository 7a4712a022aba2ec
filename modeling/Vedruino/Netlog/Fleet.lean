import Mathlib.Data.Fintype.Basic
import Vedruino.Netlog.Resubscription

/-!
# All the clients of a board

Any number of `netlog.py` run with one board. Each of them subscribes, subscribes again after a boot message and, when it ends by a signal or an exception, starts a process that unsubscribes. The board takes the connections in the order in which they were made and serves one at a time. So the request to unsubscribe comes after all requests to subscribe, also where the client has ended before the answer to one of these.
-/

namespace Vedruino.Netlog

open Ip

/-- A client by its host with its `log_port`, and `args.tcp`. -/
structure Tool where
  logAddr : IpAddr
  proto : Proto
  deriving DecidableEq, Repr

/-- Where a client is, or the process that it has started at its end. -/
inductive Life
  /-- Not started yet. -/
  | off
  | ctlSub
  | handleCtlResp
  | mainLoop
  /-- `fork_for_unsub` has been called. -/
  | forked
  /-- `ctl_unsub` waits for its response. -/
  | unsubbing
  | unsubscribed
  /-- Ended without having unsubscribed. -/
  | lost
  deriving DecidableEq, Repr

/-- The client may have an entry. -/
def Life.Liable (l : Life) : Prop := l ≠ .off ∧ l ≠ .unsubscribed

instance (l : Life) : Decidable l.Liable := inferInstanceAs (Decidable (_ ∧ _))

/-- A client in `main` until it ends. -/
def Life.Running (l : Life) : Prop := l = .ctlSub ∨ l = .handleCtlResp ∨ l = .mainLoop

instance (l : Life) : Decidable l.Running := inferInstanceAs (Decidable (_ ∨ _ ∨ _))

/-- What the response does: an error is an exception for the client, and for the process that unsubscribes. -/
def Life.answer : Life → Bool → Resp → Life
  | .handleCtlResp, false, resp => if resp.status = '+' then .mainLoop else .forked
  | .unsubbing, true, resp => if resp.status = '+' then .unsubscribed else .lost
  | l, _, _ => l

/-- A request on its way. -/
structure Ask (ι : Type) where
  tool : ι
  unsub : Bool
  deriving DecidableEq, Repr

structure Fleet (ι : Type) where
  control : Control
  life : ι → Life
  /-- The connections that the board has not accepted yet. -/
  queue : List (Ask ι)
  /-- The request that the board serves. -/
  serving : Option (Ask ι)
  /-- The last subscription was answered in the running boot, and no send to the client has failed since. -/
  known : ι → Bool

inductive FleetEvent (ι : Type)
  /-- The board restarts; its static memory holds anything but the counters. -/
  | restart (memory : Control)
  | start (i : ι)
  /-- `ctl_sub` connects and sends its request. -/
  | connect (i : ι)
  /-- A boot message passes the filter. -/
  | boot (i : ι)
  /-- The client ends by an exception or a signal. -/
  | exit (i : ι)
  /-- `ctl_unsub` connects and sends its request. -/
  | unsub (i : ι)
  /-- The client or the process that unsubscribes ends without more. -/
  | kill (i : ι)
  /-- The board takes the next connection, of which it receives a part or all in any segments. -/
  | accept (port : BitVec 16) (bufs : ReqBufs) (c : Conn)
  /-- The control task goes on. -/
  | go (hd : Option Int) (connected : Bool)
  | flush (out : Outcomes) (udpbuf buf : List UInt8)

namespace Tool

def request (t : Tool) (unsub : Bool) : Request := ⟨t.proto.bytes, t.logAddr.port, if unsub then opUnsub else opSub⟩

def sub (t : Tool) : Subscription := (t.proto, t.logAddr)

end Tool

namespace Fleet

variable {ι : Type} [DecidableEq ι]

def setLife (w : Fleet ι) (i : ι) (l : Life) : Fleet ι := { w with life := Function.update w.life i l }

/-- The control task has made a step for the request. -/
def serve (w : Fleet ι) (ask : Ask ι) (r : Control × Option Resp) : Fleet ι :=
  match r.2 with
  | none => { w with control := r.1, serving := some ask }
  | some resp =>
    { w with
      control := r.1
      serving := none
      life := Function.update w.life ask.tool ((w.life ask.tool).answer ask.unsub resp)
      known := Function.update w.known ask.tool (w.known ask.tool || (!ask.unsub && resp.status = '+')) }

def step (cfg : Config) (tools : ι → Tool) (w : Fleet ι) : FleetEvent ι → Option (Fleet ι)
  | .restart memory =>
    if memory.Init cfg then some { w with control := memory, queue := [], serving := none, known := fun _ => false } else none
  | .start i => if w.life i = .off then some (w.setLife i .ctlSub) else none
  | .connect i =>
    if w.life i = .ctlSub then some { w.setLife i .handleCtlResp with queue := w.queue ++ [⟨i, false⟩] } else none
  | .boot i => if w.life i = .mainLoop then some (w.setLife i .ctlSub) else none
  | .exit i => if (w.life i).Running then some (w.setLife i .forked) else none
  | .unsub i => if w.life i = .forked then some { w.setLife i .unsubbing with queue := w.queue ++ [⟨i, true⟩] } else none
  | .kill i => if (w.life i).Liable then some (w.setLife i .lost) else none
  | .accept port bufs c =>
    match w.queue with
    | [] => none
    | ask :: queue =>
      if c.data <+: ((tools ask.tool).request ask.unsub).bytes then
        (w.control.step cfg (.request ⟨(tools ask.tool).logAddr.addr, port⟩ bufs c)).map ({ w with queue }.serve ask)
      else none
  | .go hd connected => w.serving.bind fun ask => (w.control.step cfg (.go hd connected)).map (w.serve ask)
  | .flush out udpbuf buf =>
    (w.control.step cfg (.flush out udpbuf buf)).map fun r =>
      { w with
        control := r.1
        known := fun i => w.known i && !World.sendFailed (pkIpAddr2str (tools i).logAddr)
          (flushWithShstack cfg out udpbuf buf w.control.table).2 }

/-- No client has been started. -/
def Init (cfg : Config) (w : Fleet ι) : Prop :=
  w.control.Init cfg ∧ w.queue = [] ∧ w.serving = none ∧ (∀ i, w.life i = .off) ∧ ∀ i, w.known i = false

/-- The requests in the order in which they are served. -/
def pending (w : Fleet ι) : List (Ask ι) := w.serving.toList ++ w.queue

/-- Requests are read as they were sent or not at all. -/
def Timely (tools : ι → Tool) (w : Fleet ι) : FleetEvent ι → Prop
  | .accept _ bufs c => ∀ ask ∈ w.queue.head?, ∀ r ∈ ctlReadReq bufs c, r = (tools ask.tool).request ask.unsub
  | _ => True

/-- A client does not get an address before the last one that had it has unsubscribed. -/
def Fresh (tools : ι → Tool) (w : Fleet ι) : FleetEvent ι → Prop
  | .start i => ∀ j, (w.life j).Liable → (tools j).logAddr ≠ (tools i).logAddr
  | _ => True

end Fleet

def fleet {ι : Type} [DecidableEq ι] (cfg : Config) (tools : ι → Tool) : System (Fleet ι) (FleetEvent ι) :=
  System.ofStep (Fleet.Init cfg) (Fleet.step cfg tools)

/-! ### One request -/

/-- What the answer to a request of the client says about the subscriptions. -/
def Tool.Answered (t : Tool) (unsub : Bool) (resp : Resp) (S S' : Set Subscription) : Prop :=
  if unsub then S' = if resp.status = '+' then {k ∈ S | k.2 ≠ t.logAddr} else S
  else S ⊆ S' ∧ S' ⊆ insert t.sub S ∧ (resp.status = '+' → ∃ q, (q, t.logAddr) ∈ S')

section

variable {cfg : Config} {s t : Control} {tool : Tool} {unsub : Bool} {resp : Resp} {S S' : Set Subscription}

theorem Tool.Answered.error (h : resp.status ≠ '+') : tool.Answered unsub resp S S := by
  cases unsub with
  | false => exact ⟨Set.Subset.rfl, Set.subset_insert _ _, fun hplus => absurd hplus h⟩
  | true => exact (if_neg h).symm

theorem Tool.answered_of_answered (h : Netlog.Answered (tool.request unsub) tool.logAddr resp S S') : tool.Answered unsub resp S S' := by
  by_cases hstatus : resp.status = '+'
  · cases unsub with
    | false =>
      rw [answered_sub hstatus rfl] at h
      rcases h with ⟨hmem, rfl⟩ | ⟨-, q, hq, rfl⟩
      · exact ⟨Set.Subset.rfl, Set.subset_insert _ _, fun _ => hmem⟩
      · obtain rfl : tool.proto = q := Option.some.inj ((World.protoOf_bytes tool.proto).symm.trans hq)
        exact ⟨Set.subset_insert _ _, Set.Subset.rfl, fun _ => ⟨_, Set.mem_insert _ _⟩⟩
    | true =>
      rw [answered_unsub hstatus rfl] at h
      exact h.trans (if_pos hstatus).symm
  · rw [Netlog.Answered, if_neg hstatus] at h
    rw [h]
    exact .error hstatus

/-- A request to unsubscribe takes away only what has its address. -/
theorem Tool.Answered.keeps (h : tool.Answered unsub resp S S') {k : Subscription} (hk : k ∈ S) (haddr : k.2 ≠ tool.logAddr) :
    k ∈ S' := by
  rw [Tool.Answered] at h
  split at h
  · rw [h]
    split
    · exact ⟨hk, haddr⟩
    · exact hk
  · exact h.1 hk

/-- A request to subscribe brings only its own subscription. -/
theorem Tool.Answered.mem (h : tool.Answered unsub resp S S') {k : Subscription} (hk : k ∈ S') :
    k ∈ S ∧ ¬ (unsub = true ∧ resp.status = '+' ∧ k.2 = tool.logAddr) ∨ unsub = false ∧ k = tool.sub := by
  cases unsub with
  | false =>
    rcases h.2.1 hk with rfl | hmem
    · exact .inr ⟨rfl, rfl⟩
    · exact .inl ⟨hmem, nofun⟩
  | true =>
    have heq : S' = if resp.status = '+' then {k ∈ S | k.2 ≠ tool.logAddr} else S := h
    by_cases hstatus : resp.status = '+'
    · rw [heq, if_pos hstatus] at hk
      exact .inl ⟨hk.1, fun hlost => hk.2 hlost.2.2⟩
    · rw [heq, if_neg hstatus] at hk
      exact .inl ⟨hk, fun hlost => hstatus hlost.2.1⟩

theorem Control.accept_of_answer {i : Input} (h : s.step cfg i = some (t, some resp)) : t.pc = .accept := by
  cases Control.step_cases h with
  | malformed hpc => exact hpc
  | found | refused | inserted | unknown | removed => rfl

theorem Control.subs_flush {out : Outcomes} {udpbuf buf : List UInt8} (h : s.Inv cfg) :
    (flushWithShstack cfg out udpbuf buf s.table).1.subs ⊆ s.table.subs := by
  intro k hk
  obtain ⟨c, hc, hserves⟩ := hk
  obtain ⟨d, hd, heq⟩ := List.mem_map.1 ((flush_sublist out udpbuf buf h.counted).2.mem (List.mem_map_of_mem hc))
  exact ⟨d, hd, hserves.of_fixed heq.symm⟩

theorem Life.liable_answer {l : Life} (hl : l.Liable) (h : ¬ (unsub = true ∧ resp.status = '+')) : (l.answer unsub resp).Liable := by
  cases l with
  | off => exact absurd rfl hl.1
  | unsubscribed => exact absurd rfl hl.2
  | handleCtlResp =>
    cases unsub with
    | false =>
      rw [answer]
      split <;> decide
    | true => exact ⟨nofun, nofun⟩
  | unsubbing =>
    cases unsub with
    | false => exact ⟨nofun, nofun⟩
    | true =>
      rw [answer, if_neg fun hstatus => h ⟨rfl, hstatus⟩]
      decide
  | ctlSub | mainLoop | forked | lost => exact ⟨nofun, nofun⟩

theorem Life.mainLoop_of_answer {l : Life} (h : l.answer false resp = .mainLoop) (hstatus : resp.status ≠ '+') : l = .mainLoop := by
  cases l with
  | handleCtlResp =>
    rw [answer, if_neg hstatus] at h
    cases h
  | off | ctlSub | mainLoop | forked | unsubbing | unsubscribed | lost => exact h

end

namespace Fleet

variable {ι : Type} [DecidableEq ι] {cfg : Config} {tools : ι → Tool} {w v : Fleet ι}

/-- What a step can do. -/
inductive Moves (cfg : Config) (tools : ι → Tool) (w : Fleet ι) : FleetEvent ι → Fleet ι → Prop
  | restart {memory} : memory.Init cfg → Moves cfg tools w (.restart memory)
      { w with control := memory, queue := [], serving := none, known := fun _ => false }
  | start {i} : w.life i = .off → Moves cfg tools w (.start i) (w.setLife i .ctlSub)
  | connect {i} : w.life i = .ctlSub → Moves cfg tools w (.connect i)
      { w.setLife i .handleCtlResp with queue := w.queue ++ [⟨i, false⟩] }
  | boot {i} : w.life i = .mainLoop → Moves cfg tools w (.boot i) (w.setLife i .ctlSub)
  | exit {i} : (w.life i).Running → Moves cfg tools w (.exit i) (w.setLife i .forked)
  | unsub {i} : w.life i = .forked → Moves cfg tools w (.unsub i)
      { w.setLife i .unsubbing with queue := w.queue ++ [⟨i, true⟩] }
  | kill {i} : (w.life i).Liable → Moves cfg tools w (.kill i) (w.setLife i .lost)
  | accept {port bufs c ask queue r} : w.queue = ask :: queue →
      w.control.step cfg (.request ⟨(tools ask.tool).logAddr.addr, port⟩ bufs c) = some r →
      Moves cfg tools w (.accept port bufs c) (serve { w with queue } ask r)
  | go {hd connected ask r} : w.serving = some ask → w.control.step cfg (.go hd connected) = some r →
      Moves cfg tools w (.go hd connected) (w.serve ask r)
  | flush {out udpbuf buf r} : w.control.step cfg (.flush out udpbuf buf) = some r → Moves cfg tools w (.flush out udpbuf buf)
      { w with
        control := r.1
        known := fun i => w.known i && !World.sendFailed (pkIpAddr2str (tools i).logAddr)
          (flushWithShstack cfg out udpbuf buf w.control.table).2 }

theorem step_cases {e : FleetEvent ι} (h : w.step cfg tools e = some v) : Moves cfg tools w e v := by
  cases e with
  | restart | start | connect | boot | exit | unsub | kill =>
    rw [step, Option.ite_none_right_eq_some] at h
    obtain ⟨hguard, heq⟩ := h
    cases heq
    constructor
    exact hguard
  | accept port bufs c =>
    rw [step] at h
    split at h
    · cases h
    next ask queue hqueue =>
      rw [Option.ite_none_right_eq_some, Option.map_eq_some_iff] at h
      obtain ⟨-, r, hstep, rfl⟩ := h
      exact .accept hqueue hstep
  | go hd connected =>
    rw [step, Option.bind_eq_some_iff] at h
    obtain ⟨ask, hserving, h⟩ := h
    obtain ⟨r, hstep, rfl⟩ := Option.map_eq_some_iff.1 h
    exact .go hserving hstep
  | flush out udpbuf buf =>
    obtain ⟨r, hstep, rfl⟩ := Option.map_eq_some_iff.1 h
    exact .flush hstep

/-- The control task is at a section of the request that the board serves. -/
def Serves (tools : ι → Tool) (w : Fleet ι) : Prop :=
  match w.serving with
  | none => w.control.pc = .accept
  | some ask => w.control.pc.For ((tools ask.tool).request ask.unsub) (tools ask.tool).logAddr

/-- Each subscription is one of a client that has not unsubscribed, and after a client's request to unsubscribe there is no other one of it. -/
structure Inv (cfg : Config) (tools : ι → Tool) (w : Fleet ι) : Prop where
  reachable : (Netlog.control cfg).Reachable w.control
  subs : ∀ k ∈ w.control.table.subs, ∃ i, (tools i).sub = k ∧ (w.life i).Liable
  serves : w.Serves tools
  asks : ∀ ask ∈ w.pending, (w.life ask.tool).Liable
  unsubs : ∀ ask ∈ w.pending, ask.unsub = true → w.life ask.tool = .unsubbing ∨ w.life ask.tool = .lost
  order : w.pending.Pairwise fun x y => x.unsub = true → y.tool ≠ x.tool

theorem life_setLife (w : Fleet ι) (i j : ι) (l : Life) : (w.setLife i l).life j = if j = i then l else w.life j :=
  Function.update_apply _ _ _ _

theorem Inv.setLife (h : w.Inv cfg tools) {i : ι} {l : Life} (hl : l.Liable)
    (hunsub : ∀ ask ∈ w.pending, ask.tool = i → ask.unsub = true → l = .unsubbing ∨ l = .lost) :
    (w.setLife i l).Inv cfg tools := by
  have hliable : ∀ j, (w.life j).Liable → ((w.setLife i l).life j).Liable := by
    intro j hj
    rw [life_setLife]
    split
    · exact hl
    · exact hj
  refine ⟨h.reachable, fun k hk => ?_, h.serves, fun ask hask => hliable _ (h.asks ask hask), fun ask hask hu => ?_, h.order⟩
  · obtain ⟨j, hsub, hj⟩ := h.subs k hk
    exact ⟨j, hsub, hliable j hj⟩
  · rw [life_setLife]
    split
    next heq => exact hunsub ask hask heq hu
    next => exact h.unsubs ask hask hu

omit [DecidableEq ι] in
theorem Inv.append (h : w.Inv cfg tools) {ask : Ask ι} (hliable : (w.life ask.tool).Liable)
    (hunsub : ask.unsub = true → w.life ask.tool = .unsubbing ∨ w.life ask.tool = .lost)
    (hnone : ∀ x ∈ w.pending, x.unsub = true → ask.tool ≠ x.tool) : Inv cfg tools { w with queue := w.queue ++ [ask] } := by
  have hpending : pending { w with queue := w.queue ++ [ask] } = w.pending ++ [ask] := (List.append_assoc ..).symm
  refine ⟨h.reachable, h.subs, h.serves, ?_, ?_, ?_⟩
  · rw [hpending, List.forall_mem_append, List.forall_mem_singleton]
    exact ⟨h.asks, hliable⟩
  · rw [hpending, List.forall_mem_append, List.forall_mem_singleton]
    exact ⟨h.unsubs, hunsub⟩
  · rw [hpending, List.pairwise_append]
    refine ⟨h.order, List.pairwise_singleton _ _, fun x hx y hy hu => ?_⟩
    rw [List.mem_singleton.1 hy]
    exact hnone x hx hu

omit [DecidableEq ι] in
/-- Only the process that unsubscribes has a request to unsubscribe. -/
theorem Inv.not_unsub (h : w.Inv cfg tools) {i : ι} (hlife : w.life i ≠ .unsubbing ∧ w.life i ≠ .lost) :
    ∀ ask ∈ w.pending, ask.unsub = true → i ≠ ask.tool := by
  rintro ask hask hu rfl
  rcases h.unsubs ask hask hu with heq | heq
  · exact hlife.1 heq
  · exact hlife.2 heq

/-- The state after an answer. -/
def answered (w : Fleet ι) (ask : Ask ι) (t : Control) (resp : Resp) (queue : List (Ask ι)) : Fleet ι where
  control := t
  life := Function.update w.life ask.tool ((w.life ask.tool).answer ask.unsub resp)
  queue := queue
  serving := none
  known := Function.update w.known ask.tool (w.known ask.tool || (!ask.unsub && resp.status = '+'))

theorem life_answered (w : Fleet ι) (ask : Ask ι) (t : Control) (resp : Resp) (queue : List (Ask ι)) (i : ι) :
    (w.answered ask t resp queue).life i = if i = ask.tool then (w.life ask.tool).answer ask.unsub resp else w.life i :=
  Function.update_apply _ _ _ _

theorem Inv.answered (h : w.Inv cfg tools) {ask : Ask ι} {queue : List (Ask ι)} (hpending : w.pending = ask :: queue)
    {t : Control} {resp : Resp} (hreach : (Netlog.control cfg).Reachable t) (hpc : t.pc = .accept)
    (hanswered : (tools ask.tool).Answered ask.unsub resp w.control.table.subs t.table.subs) :
    (w.answered ask t resp queue).Inv cfg tools := by
  have hasks := h.asks
  have hunsubs := h.unsubs
  have horder := h.order
  rw [hpending, List.forall_mem_cons] at hasks hunsubs
  rw [hpending, List.pairwise_cons] at horder
  -- only the answer to a request to unsubscribe ends what a client may have
  have hliable : ∀ i, (w.life i).Liable → (i = ask.tool → ¬ (ask.unsub = true ∧ resp.status = '+')) →
      ((w.answered ask t resp queue).life i).Liable := by
    intro i hi hask
    rw [life_answered]
    split
    next heq => exact Life.liable_answer hasks.1 (hask heq)
    next => exact hi
  refine ⟨hreach, fun k hk => ?_, hpc, fun x hx => ?_, fun x hx hu => ?_, horder.2⟩
  · rcases hanswered.mem hk with ⟨hmem, hnot⟩ | ⟨hunsub, rfl⟩
    · obtain ⟨i, hsub, hi⟩ := h.subs k hmem
      refine ⟨i, hsub, hliable i hi fun heq hplus => hnot ⟨hplus.1, hplus.2, ?_⟩⟩
      rw [← hsub, heq]
      rfl
    · exact ⟨ask.tool, rfl, hliable _ hasks.1 fun _ hplus => Bool.false_ne_true (hunsub.symm.trans hplus.1)⟩
  · exact hliable _ (hasks.2 x hx) fun heq hplus => horder.1 x hx hplus.1 heq
  · rw [life_answered]
    split
    next heq =>
      have hsub : ask.unsub = false := Bool.eq_false_of_not_eq_true fun hunsub => horder.1 x hx hunsub heq
      have hlife := hunsubs.2 x hx hu
      rw [heq] at hlife
      rw [hsub]
      rcases hlife with hlife | hlife
      · rw [hlife]
        exact .inl rfl
      · rw [hlife]
        exact .inr rfl
    next => exact hunsubs.2 x hx hu

omit [DecidableEq ι] in
theorem Inv.serving_none (h : w.Inv cfg tools) (hpc : w.control.pc = .accept) : w.serving = none := by
  cases hserving : w.serving with
  | none => rfl
  | some ask =>
    have hserves := h.serves
    rw [Serves, hserving] at hserves
    dsimp only at hserves
    rw [hpc] at hserves
    exact hserves.elim

omit [DecidableEq ι] in
theorem Inv.underway (h : w.Inv cfg tools) {ask : Ask ι} {queue : List (Ask ι)} (hpending : w.pending = ask :: queue) {t : Control}
    (hreach : (Netlog.control cfg).Reachable t)
    (hpursues : w.control.Pursues ((tools ask.tool).request ask.unsub) (tools ask.tool).logAddr t) :
    Inv cfg tools { w with control := t, queue, serving := some ask } := by
  have hsubs := Table.subs_congr hpursues.live
  refine ⟨hreach, ?_, hpursues.pc, ?_, ?_, ?_⟩
  · dsimp only
    rw [hsubs]
    exact h.subs
  · show ∀ x ∈ ask :: queue, _
    rw [← hpending]
    exact h.asks
  · show ∀ x ∈ ask :: queue, _
    rw [← hpending]
    exact h.unsubs
  · show (ask :: queue).Pairwise _
    rw [← hpending]
    exact h.order

/-- The control task has gone on with the request, or has answered it. -/
def Served (tools : ι → Tool) (w : Fleet ι) (ask : Ask ι) (r : Control × Option Resp) : Prop :=
  match r.2 with
  | none => w.control.Pursues ((tools ask.tool).request ask.unsub) (tools ask.tool).logAddr r.1
  | some resp => r.1.pc = .accept ∧ (tools ask.tool).Answered ask.unsub resp w.control.table.subs r.1.table.subs

omit [DecidableEq ι] in
theorem Inv.served_accept (h : w.Inv cfg tools) {ask : Ask ι} {queue : List (Ask ι)} (hqueue : w.queue = ask :: queue)
    {port : BitVec 16} {bufs : ReqBufs} {c : Conn} (hread : ∀ r ∈ ctlReadReq bufs c, r = (tools ask.tool).request ask.unsub)
    {r : Control × Option Resp}
    (hstep : w.control.step cfg (.request ⟨(tools ask.tool).logAddr.addr, port⟩ bufs c) = some r) :
    w.pending = ask :: queue ∧ w.Served tools ask r := by
  obtain ⟨t, resp⟩ := r
  have hpending : w.control.pc = .accept → w.pending = ask :: queue := by
    intro hpc
    rw [pending, h.serving_none hpc, hqueue]
    rfl
  cases Control.step_cases hstep with
  | malformed hpc => exact ⟨hpending hpc, hpc, .error (by decide)⟩
  | sub hpc hr =>
    have hsome := hr.trans (congrArg some (hread _ hr))
    exact ⟨hpending hpc, @Control.Pursues.start cfg w.control _ _ _ _ _ hsome hstep⟩
  | unsub hpc hr =>
    have hsome := hr.trans (congrArg some (hread _ hr))
    exact ⟨hpending hpc, @Control.Pursues.start cfg w.control _ _ _ _ _ hsome hstep⟩

omit [DecidableEq ι] in
theorem Inv.served_go (h : w.Inv cfg tools) {ask : Ask ι} (hserving : w.serving = some ask) {hd : Option Int} {connected : Bool}
    {r : Control × Option Resp} (hstep : w.control.step cfg (.go hd connected) = some r) :
    w.pending = ask :: w.queue ∧ w.Served tools ask r := by
  obtain ⟨t, resp⟩ := r
  have hinv := Control.inv_of_reachable h.reachable
  have hpending : w.pending = ask :: w.queue := by
    rw [pending, hserving]
    rfl
  have hserves := h.serves
  rw [Serves, hserving] at hserves
  have hpursues : w.control.Pursues ((tools ask.tool).request ask.unsub) (tools ask.tool).logAddr w.control := ⟨rfl, hserves⟩
  cases resp with
  | none => exact ⟨hpending, hpursues.step (i := .go hd connected) hinv trivial hstep⟩
  | some resp =>
    have hanswer :=
      hpursues.answer (i := .go hd connected) hinv (Control.addressed_of_reachable h.reachable) trivial hstep
    exact ⟨hpending, Control.accept_of_answer hstep, Tool.answered_of_answered hanswer.1⟩

theorem Inv.serve (h : w.Inv cfg tools) {ask : Ask ι} {queue : List (Ask ι)} (hpending : w.pending = ask :: queue)
    {i : Input} {r : Control × Option Resp} (hstep : w.control.step cfg i = some r) (hserved : w.Served tools ask r) :
    (serve { w with queue } ask r).Inv cfg tools := by
  obtain ⟨t, resp⟩ := r
  have hreach : (Netlog.control cfg).Reachable t := Control.reachable_step h.reachable hstep
  cases resp with
  | none => exact h.underway hpending hreach hserved
  | some resp => exact h.answered hpending hreach hserved.1 hserved.2

omit [DecidableEq ι] in
theorem Inv.flush (h : w.Inv cfg tools) {out : Outcomes} {udpbuf buf : List UInt8} {r : Control × Option Resp}
    (hstep : w.control.step cfg (.flush out udpbuf buf) = some r) (known : ι → Bool) :
    Inv cfg tools { w with control := r.1, known } := by
  obtain ⟨t, resp⟩ := r
  have hreach : (Netlog.control cfg).Reachable t := Control.reachable_step h.reachable hstep
  have hinv := Control.inv_of_reachable h.reachable
  cases Control.step_cases hstep with
  | flush => exact ⟨hreach, fun k hk => h.subs k (Control.subs_flush hinv hk), h.serves, h.asks, h.unsubs, h.order⟩

omit [DecidableEq ι] in
theorem inv_restart (w : Fleet ι) {memory : Control} (hinit : memory.Init cfg) :
    Inv cfg tools { w with control := memory, queue := [], serving := none, known := fun _ => false } := by
  refine ⟨.init hinit, ?_, hinit.2.2.2, List.forall_mem_nil _, List.forall_mem_nil _, List.Pairwise.nil⟩
  intro k hk
  obtain ⟨c, hc, -⟩ := hk
  rw [Table.live, hinit.2.1] at hc
  cases hc

theorem Inv.step (h : w.Inv cfg tools) {e : FleetEvent ι} (he : w.Timely tools e) (hstep : w.step cfg tools e = some v) :
    v.Inv cfg tools := by
  cases step_cases hstep with
  | restart hinit => exact inv_restart w hinit
  | start hlife =>
    refine h.setLife (by decide) fun ask hask htool _ => ?_
    have hliable := h.asks ask hask
    rw [htool] at hliable
    exact absurd hlife hliable.1
  | @connect i hlife =>
    have hnot := h.not_unsub (i := i) (by rw [hlife]; decide)
    have hset : (w.setLife i .handleCtlResp).Inv cfg tools :=
      h.setLife (by decide) fun ask hask htool hu => absurd htool.symm (hnot ask hask hu)
    refine hset.append ?_ nofun hnot
    rw [life_setLife, if_pos rfl]
    decide
  | @boot i hlife =>
    have hnot := h.not_unsub (i := i) (by rw [hlife]; decide)
    exact h.setLife (by decide) fun ask hask htool hu => absurd htool.symm (hnot ask hask hu)
  | @exit i hlife =>
    have hnot := h.not_unsub (i := i) (by rcases hlife with hlife | hlife | hlife <;> rw [hlife] <;> decide)
    exact h.setLife (by decide) fun ask hask htool hu => absurd htool.symm (hnot ask hask hu)
  | @unsub i hlife =>
    have hnot := h.not_unsub (i := i) (by rw [hlife]; decide)
    have hset : (w.setLife i .unsubbing).Inv cfg tools := h.setLife (by decide) fun _ _ _ _ => .inl rfl
    have hself : (w.setLife i .unsubbing).life i = .unsubbing := (life_setLife _ _ _ _).trans (if_pos rfl)
    refine hset.append ?_ (fun _ => .inl hself) hnot
    rw [hself]
    decide
  | kill => exact h.setLife (by decide) fun _ _ _ _ => .inr rfl
  | accept hqueue hcontrol =>
    obtain ⟨hpending, hserved⟩ := h.served_accept hqueue (he _ (by rw [hqueue]; rfl)) hcontrol
    exact h.serve hpending hcontrol hserved
  | go hserving hcontrol =>
    obtain ⟨hpending, hserved⟩ := h.served_go hserving hcontrol
    exact h.serve hpending hcontrol hserved
  | flush hcontrol => exact h.flush hcontrol _

theorem inv_of_reachable (hw : (fleet cfg tools).ReachableUnder (Timely tools) w) : w.Inv cfg tools := by
  refine hw.invariant ?_ fun _ _ _ h he hstep => h.step he hstep
  intro w hinit
  obtain ⟨hcontrol, hqueue, hserving, -, -⟩ := hinit
  have hpending : w.pending = [] := by
    rw [pending, hserving, hqueue]
    rfl
  refine ⟨.init hcontrol, ?_, ?_, ?_, ?_, ?_⟩
  · intro k hk
    obtain ⟨c, hc, -⟩ := hk
    rw [Table.live, hcontrol.2.1] at hc
    cases hc
  · rw [Serves, hserving]
    exact hcontrol.2.2.2
  · rw [hpending]
    exact List.forall_mem_nil _
  · rw [hpending]
    exact List.forall_mem_nil _
  · rw [hpending]
    exact List.Pairwise.nil

/-! ### The clients that the board knows -/

/-- No two clients share an address, and the board has the entries of those that it knows. -/
structure Held (tools : ι → Tool) (w : Fleet ι) : Prop where
  unique : ∀ i j, (w.life i).Liable → (w.life j).Liable → (tools i).logAddr = (tools j).logAddr → i = j
  holds : ∀ i, w.life i = .mainLoop → w.known i = true → (tools i).sub ∈ w.control.table.subs

theorem Held.setLife (h : w.Held tools) {i : ι} {l : Life} (hi : (w.life i).Liable) (hl : l ≠ .mainLoop) :
    (w.setLife i l).Held tools := by
  have hliable : ∀ j, ((w.setLife i l).life j).Liable → (w.life j).Liable := by
    intro j hj
    rw [life_setLife] at hj
    split at hj
    next heq => rwa [heq]
    next => exact hj
  refine ⟨fun j k hj hk => h.unique j k (hliable j hj) (hliable k hk), fun j hj => ?_⟩
  rw [life_setLife] at hj
  split at hj
  · exact absurd hj hl
  · exact h.holds j hj

theorem Held.start (h : w.Held tools) {i : ι} (hfresh : w.Fresh tools (.start i)) : (w.setLife i .ctlSub).Held tools := by
  have hliable : ∀ j, j ≠ i → ((w.setLife i .ctlSub).life j).Liable → (w.life j).Liable := by
    intro j hj hlife
    rwa [life_setLife, if_neg hj] at hlife
  refine ⟨fun j k hj hk haddr => ?_, fun j hj => ?_⟩
  · by_cases hji : j = i
    · by_cases hki : k = i
      · rw [hji, hki]
      · exact absurd (haddr.symm.trans (congrArg (fun x => (tools x).logAddr) hji)) (hfresh k (hliable k hki hk))
    · by_cases hki : k = i
      · exact absurd (haddr.trans (congrArg (fun x => (tools x).logAddr) hki)) (hfresh j (hliable j hji hj))
      · exact h.unique j k (hliable j hji hj) (hliable k hki hk) haddr
  · rw [life_setLife] at hj
    split at hj
    · cases hj
    · exact h.holds j hj

theorem Held.answered (h : w.Held tools) (hw : w.Inv cfg tools) {ask : Ask ι} {queue : List (Ask ι)}
    (hpending : w.pending = ask :: queue) {t : Control} {resp : Resp} (hv : (w.answered ask t resp queue).Inv cfg tools)
    (hanswered : (tools ask.tool).Answered ask.unsub resp w.control.table.subs t.table.subs) :
    (w.answered ask t resp queue).Held tools := by
  have hask := hw.asks ask (hpending ▸ List.mem_cons_self)
  have hunsub := hw.unsubs ask (hpending ▸ List.mem_cons_self)
  have hliable : ∀ i, ((w.answered ask t resp queue).life i).Liable → (w.life i).Liable := by
    intro i hi
    rw [life_answered] at hi
    split at hi
    next heq => rwa [heq]
    next => exact hi
  have hunique : ∀ i j, ((w.answered ask t resp queue).life i).Liable → ((w.answered ask t resp queue).life j).Liable →
      (tools i).logAddr = (tools j).logAddr → i = j := fun i j hi hj => h.unique i j (hliable i hi) (hliable j hj)
  refine ⟨hunique, fun i hi hknown => ?_⟩
  show (tools i).sub ∈ t.table.subs
  rw [life_answered] at hi
  by_cases hself : i = ask.tool
  · rw [if_pos hself] at hi
    have hsub : ask.unsub = false := by
      refine Bool.eq_false_of_not_eq_true fun htrue => ?_
      rw [htrue] at hi
      rcases hunsub htrue with hlife | hlife
      · rw [hlife, Life.answer] at hi
        split at hi
        · cases hi
        · cases hi
      · rw [hlife] at hi
        cases hi
    rw [Tool.Answered, hsub, if_neg Bool.false_ne_true] at hanswered
    obtain ⟨hkept, -, hplus⟩ := hanswered
    by_cases hstatus : resp.status = '+'
    · -- the entry with the client's address is the client's own
      obtain ⟨q, hq⟩ := hplus hstatus
      obtain ⟨j, hj, hjlife⟩ := hv.subs _ hq
      have hilife : ((w.answered ask t resp queue).life i).Liable := by
        rw [life_answered, if_pos hself, hi]
        decide
      have haddr : (tools j).logAddr = (tools i).logAddr := by
        rw [hself]
        exact congrArg Prod.snd hj
      rwa [← hunique j i hjlife hilife haddr, hj]
    · have hknown' : w.known i = true := by
        have hupdate : (w.answered ask t resp queue).known i =
            (w.known ask.tool || (!ask.unsub && decide (resp.status = '+'))) := by
          rw [hself]
          exact Function.update_self _ _ _
        rw [hupdate, decide_eq_false hstatus, Bool.and_false, Bool.or_false, ← hself] at hknown
        exact hknown
      rw [hsub, ← hself] at hi
      exact hkept (h.holds i (Life.mainLoop_of_answer hi hstatus) hknown')
  · rw [if_neg hself] at hi
    have hknown' : w.known i = true := (Function.update_of_ne hself _ _).symm.trans hknown
    refine hanswered.keeps (h.holds i hi hknown') fun haddr => hself (h.unique i ask.tool ?_ hask haddr)
    rw [hi]
    decide

theorem Held.serve (h : w.Held tools) (hw : w.Inv cfg tools) {ask : Ask ι} {queue : List (Ask ι)}
    (hpending : w.pending = ask :: queue) {i : Input} {r : Control × Option Resp} (hstep : w.control.step cfg i = some r)
    (hserved : w.Served tools ask r) : (serve { w with queue } ask r).Held tools := by
  have hv := hw.serve hpending hstep hserved
  obtain ⟨t, resp⟩ := r
  cases resp with
  | none =>
    refine ⟨h.unique, fun j hj hknown => ?_⟩
    have hsubs : t.table.subs = w.control.table.subs := Table.subs_congr hserved.live
    show (tools j).sub ∈ t.table.subs
    rw [hsubs]
    exact h.holds j hj hknown
  | some resp => exact h.answered hw hpending hv hserved.2

omit [DecidableEq ι] in
theorem Held.flush (h : w.Held tools) (hw : w.Inv cfg tools) {out : Outcomes} {udpbuf buf : List UInt8} {r : Control × Option Resp}
    (hstep : w.control.step cfg (.flush out udpbuf buf) = some r) : Held tools { w with
      control := r.1
      known := fun i => w.known i && !World.sendFailed (pkIpAddr2str (tools i).logAddr)
        (flushWithShstack cfg out udpbuf buf w.control.table).2 } := by
  obtain ⟨t, resp⟩ := r
  have hinv := Control.inv_of_reachable hw.reachable
  refine ⟨h.unique, fun i hi hknown => ?_⟩
  rw [Bool.and_eq_true, Bool.not_eq_true'] at hknown
  obtain ⟨c, hc, hserves⟩ := h.holds i hi hknown.1
  have hsends := hknown.2
  have haddr : c.addrStr = pkIpAddr2str (tools i).logAddr := hserves.addrStr
  rw [← haddr] at hsends
  obtain ⟨d, hd, heq⟩ := List.mem_map.1 (flush_kept hinv.counted hc hsends)
  cases Control.step_cases hstep with
  | flush => exact ⟨d, hd, hserves.of_fixed heq.symm⟩

theorem Held.step (h : w.Held tools) (hw : w.Inv cfg tools) {e : FleetEvent ι} (he : w.Timely tools e)
    (hfresh : w.Fresh tools e) (hstep : w.step cfg tools e = some v) : v.Held tools := by
  have hset : ∀ {i : ι} {l l' : Life}, w.life i = l → l.Liable → l' ≠ .mainLoop → (w.setLife i l').Held tools :=
    fun hlife hl hl' => h.setLife (hlife ▸ hl) hl'
  cases step_cases hstep with
  | restart => exact ⟨h.unique, nofun⟩
  | start => exact h.start hfresh
  | @connect i hlife =>
    have hheld := @hset i .ctlSub .handleCtlResp hlife (by decide) (by decide)
    exact ⟨hheld.unique, hheld.holds⟩
  | boot hlife => exact hset hlife (by decide) (by decide)
  | exit hlife =>
    rcases hlife with hlife | hlife | hlife
    · exact hset hlife (by decide) (by decide)
    · exact hset hlife (by decide) (by decide)
    · exact hset hlife (by decide) (by decide)
  | @unsub i hlife =>
    have hheld := @hset i .forked .unsubbing hlife (by decide) (by decide)
    exact ⟨hheld.unique, hheld.holds⟩
  | kill hlife => exact h.setLife hlife (by decide)
  | accept hqueue hcontrol =>
    obtain ⟨hpending, hserved⟩ := hw.served_accept hqueue (he _ (by rw [hqueue]; rfl)) hcontrol
    exact h.serve hw hpending hcontrol hserved
  | go hserving hcontrol =>
    obtain ⟨hpending, hserved⟩ := hw.served_go hserving hcontrol
    exact h.serve hw hpending hcontrol hserved
  | flush hcontrol => exact h.flush hw hcontrol

/-- The runs in which requests are read as they were sent or not at all, and addresses are not taken too early. -/
def Guard (tools : ι → Tool) (w : Fleet ι) (e : FleetEvent ι) : Prop := w.Timely tools e ∧ w.Fresh tools e

instance (tools : ι → Tool) (w : Fleet ι) : DecidablePred (w.Timely tools)
  | .accept _ bufs c => inferInstanceAs (Decidable (∀ ask ∈ w.queue.head?, ∀ r ∈ ctlReadReq bufs c, r = _))
  | .restart _ | .start _ | .connect _ | .boot _ | .exit _ | .unsub _ | .kill _ | .go _ _ | .flush _ _ _ => .isTrue trivial

instance [Fintype ι] (tools : ι → Tool) (w : Fleet ι) : DecidablePred (w.Fresh tools)
  | .start i => inferInstanceAs (Decidable (∀ j, (w.life j).Liable → (tools j).logAddr ≠ (tools i).logAddr))
  | .restart _ | .connect _ | .boot _ | .exit _ | .unsub _ | .kill _ | .accept _ _ _ | .go _ _ | .flush _ _ _ => .isTrue trivial

instance [Fintype ι] (tools : ι → Tool) (w : Fleet ι) : DecidablePred (w.Guard tools) :=
  fun _ => inferInstanceAs (Decidable (_ ∧ _))

end Fleet

section

variable {ι : Type} [DecidableEq ι] {cfg : Config} {tools : ι → Tool} {w : Fleet ι}

/-- **However the clients start, subscribe again and end, and whatever fails or restarts in between, every entry of the board is for a client that has been started and whose request to unsubscribe has not been granted with `+` yet. When all clients that were started have unsubscribed the board has no entries.** -/
theorem fleet_entries (hw : (fleet cfg tools).ReachableUnder (Fleet.Timely tools) w) :
    (∀ c ∈ w.control.table.live, ∃ i, c.Serves (tools i).sub ∧ (w.life i).Liable) ∧
      ((∀ i, w.life i = .off ∨ w.life i = .unsubscribed) → w.control.table.live = []) := by
  have h := Fleet.inv_of_reachable hw
  have hentries : ∀ c ∈ w.control.table.live, ∃ i, c.Serves (tools i).sub ∧ (w.life i).Liable := by
    intro c hc
    obtain ⟨k, hk⟩ := Control.addressed_of_reachable h.reachable c hc
    obtain ⟨i, rfl, hi⟩ := h.subs k ⟨c, hc, hk⟩
    exact ⟨i, hk, hi⟩
  refine ⟨hentries, fun hends => List.eq_nil_iff_forall_not_mem.2 fun c hc => ?_⟩
  obtain ⟨i, -, hi⟩ := hentries c hc
  rcases hends i with hoff | hunsubscribed
  · exact hi.1 hoff
  · exact hi.2 hunsubscribed

end

/-- Two clients on one host. -/
def twoTools (i : Bool) : Tool := ⟨⟨0x7f000001, if i then 10 else 9⟩, .udp⟩

def noTools : Fleet Bool := ⟨emptyControl, fun _ => .off, [], none, fun _ => false⟩

theorem noTools_init : noTools.Init oneClient := ⟨emptyControl_init, rfl, rfl, fun _ => rfl, fun _ => rfl⟩

def accepts (i unsub : Bool) : FleetEvent Bool := .accept 4000 zeroBufs [some ((twoTools i).request unsub).bytes]

def subscribes (hd : Int) : List (FleetEvent Bool) := [.go none false, .go none false, .go (some hd) false, .go none false]

/-- The first client is interrupted before the board has taken its request, and its place is free for the second one. -/
def interrupted : List (FleetEvent Bool) :=
  [.start false, .connect false, .exit false, .unsub false, .start true, .connect true, accepts false false] ++ subscribes 3 ++
    [accepts false true, .go none false, accepts true false] ++ subscribes 4

def afterInterrupted : Fleet Bool := (System.runSteps (Fleet.step oneClient twoTools) noTools interrupted).getD noTools

theorem afterInterrupted_reachable : (fleet oneClient twoTools).ReachableUnder (Fleet.Guard twoTools) afterInterrupted :=
  System.reachableUnder_runSteps interrupted (.init noTools_init) rfl

theorem fleet_entries_interrupted : afterInterrupted.life false = .unsubscribed ∧
    ∀ c ∈ afterInterrupted.control.table.live, ∃ i, c.Serves (twoTools i).sub ∧ (afterInterrupted.life i).Liable :=
  ⟨rfl, (fleet_entries (afterInterrupted_reachable.mono fun _ _ h => h.1)).1⟩

/-- The second client has the address of the first one. -/
def sameTools (_ : Bool) : Tool := twoTools false

/-- The first client ends, and the second one gets its port and subscribes before the first one has unsubscribed. -/
def takenEarly : List (FleetEvent Bool) :=
  [.start false, .connect false, accepts false false] ++ subscribes 3 ++
    [.exit false, .start true, .connect true, accepts false false, .go none false, .unsub false, accepts false true, .go none false]

def afterTakenEarly : Fleet Bool := (System.runSteps (Fleet.step oneClient sameTools) noTools takenEarly).getD noTools

/-- The board answers the second client that it is subscribed, and deletes the entry for the first one. -/
theorem taken_early_unknown : ¬ ∀ (tools : Bool → Tool) w, (fleet oneClient tools).ReachableUnder (Fleet.Timely tools) w →
    ∀ i, w.life i = .mainLoop → w.known i = true → (tools i).sub ∈ w.control.table.subs := by
  intro h
  have hreach : (fleet oneClient sameTools).ReachableUnder (Fleet.Timely sameTools) afterTakenEarly :=
    System.reachableUnder_runSteps takenEarly (.init noTools_init) rfl
  obtain ⟨c, hc, -⟩ := h _ _ hreach true rfl rfl
  have hnone : afterTakenEarly.control.table.live = [] := rfl
  rw [hnone] at hc
  exact List.not_mem_nil hc

end Vedruino.Netlog
