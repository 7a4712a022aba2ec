import Vedruino.Ip.Tcp
import Vedruino.Lib.Runs
import Vedruino.Netlog.Flush

/-!
# The control server

One task serves the requests, and any task may flush stdout at any time. `clients_mutex` is held for a whole flush and for each critical section of `ctl_sub` and `ctl_unsub`, so each of these is one step here. Between two sections of a request, and while it connects to the client, flushes may delete entries. `Inv` is what the three sections of `ctl_sub` rely on: nobody but the control task adds entries, so an address not found stays away and a free place stays free.
-/

namespace Vedruino.Netlog

open Ip

/-- `pkNetlogResp_t`. -/
inductive Resp
  | ok | okIgnored | errInternal | errMalformedReq | errClientsLimit | errTcpConnect
  deriving DecidableEq, Repr

def Resp.status : Resp → Char
  | .ok | .okIgnored => '+'
  | .errInternal | .errMalformedReq | .errClientsLimit | .errTcpConnect => '-'

inductive Proto
  | udp | tcp
  deriving DecidableEq, Repr

def magic : List UInt8 := ascii ['2', '7', '2', '0', 'N', 'E', 'T', 'L', 'O', 'G']

def protoSize : Nat := 3

/-- `PROTO_UDP` and `PROTO_TCP`. -/
def Proto.bytes : Proto → List UInt8
  | .udp => ascii ['u', 'd', 'p']
  | .tcp => ascii ['t', 'c', 'p']

/-- The comparisons of `ctl_sub` with the protocol names. -/
def protoOf (proto : List UInt8) : Option Proto :=
  if proto = Proto.udp.bytes then some .udp else if proto = Proto.tcp.bytes then some .tcp else none

structure Request where
  proto : List UInt8
  port : BitVec 16
  op : UInt8
  deriving DecidableEq, Repr

/-- What a request is sent as: `{magic}{proto}{port}{op}`, the port in network order. -/
def Request.bytes (r : Request) : List UInt8 :=
  magic ++ (r.proto ++ (htons r.port ++ [r.op]))

/-- The buffers on the stack of `ctl_handle_req`, before anything is received into them. -/
structure ReqBufs where
  magic : List UInt8
  proto : List UInt8
  port : List UInt8
  op : List UInt8
  magic_length : magic.length = Netlog.magic.length
  proto_length : proto.length = protoSize
  port_length : port.length = 2
  op_length : op.length = 1

/-- What `ctl_handle_req` reads of a request; `none` where it answers `PK_NETLOG_ERR_MALFORMED_REQ` at once. -/
def ctlReadReq (bufs : ReqBufs) (c : Conn) : Option Request :=
  let m := pkTcpRecvn c bufs.magic magic.length
  if ¬ m.1 ∨ m.2.1 ≠ magic then none
  else
    let proto := pkTcpRecvn m.2.2 bufs.proto protoSize
    if ¬ proto.1 then none
    else
      let port := pkTcpRecvn proto.2.2 bufs.port 2
      if ¬ port.1 then none
      else
        let op := pkTcpRecvn port.2.2 bufs.op 1
        if ¬ op.1 then none else some ⟨proto.2.1, ntohs port.2.1, op.2.1.getD 0 0⟩

/-- Where the control task is. The names are those of the section it comes to next. -/
inductive Pc
  | accept
  | lookup (proto : List UInt8) (logAddr : IpAddr)
  | room (proto : List UInt8) (logAddr : IpAddr)
  | connect (proto : List UInt8) (logAddr : IpAddr)
  | insert (logChd : Int) (isUdp : Bool) (logAddr : IpAddr)
  | unsub (logAddr : IpAddr)
  | assertFailed
  deriving DecidableEq, Repr

structure Control where
  table : Table
  pc : Pc
  deriving DecidableEq, Repr

/-- What a step takes from outside. -/
inductive Input
  /-- A request from an address. -/
  | request (ctlAddr : IpAddr) (bufs : ReqBufs) (c : Conn)
  /-- The control task goes on. Where it opens a socket, `hd` is the handle and `connected` the result of `pk_tcp_connect`. -/
  | go (hd : Option Int) (connected : Bool)
  /-- Some task flushes stdout. -/
  | flush (out : Outcomes) (udpbuf buf : List UInt8)

def opSub : UInt8 := UInt8.ofNat 'S'.toNat

def opUnsub : UInt8 := UInt8.ofNat 'U'.toNat

/-- `ctl_handle_req` up to the call of `ctl_sub` or `ctl_unsub`. -/
def ctlHandleReq (s : Control) (ctlAddr : IpAddr) (bufs : ReqBufs) (c : Conn) : Control × Option Resp :=
  match ctlReadReq bufs c with
  | none => (s, some .errMalformedReq)
  | some r =>
    let logAddr : IpAddr := ⟨ctlAddr.addr, r.port⟩
    if r.op = opSub then ({ s with pc := .lookup r.proto logAddr }, none)
    else if r.op = opUnsub then ({ s with pc := .unsub logAddr }, none)
    else (s, some .errMalformedReq)

/-- The control task from one section to the next, with the response where the request ends. -/
def Control.go (cfg : Config) (s : Control) (hd : Option Int) (connected : Bool) : Option (Control × Option Resp) :=
  match s.pc with
  | .accept | .assertFailed => none
  | .lookup proto logAddr =>
    match s.table.getClientIdxByAddrStr (pkIpAddr2str logAddr) with
    | some _ => some ({ s with pc := .accept }, some .okIgnored)
    | none => some ({ s with pc := .room proto logAddr }, none)
  | .room proto logAddr =>
    match s.table.getFreeIdxInClients cfg with
    | none => some ({ s with pc := .accept }, some .errClientsLimit)
    | some _ => some ({ s with pc := .connect proto logAddr }, none)
  | .connect proto logAddr =>
    match protoOf proto, hd with
    | none, _ => some ({ s with pc := .accept }, some .errMalformedReq)
    | some _, none => some ({ s with pc := .accept }, some .errInternal)
    | some .udp, some logChd => some ({ s with pc := .insert logChd true logAddr }, none)
    | some .tcp, some logChd =>
      if connected then some ({ s with pc := .insert logChd false logAddr }, none)
      else some ({ s with pc := .accept }, some .errTcpConnect)
  | .insert logChd isUdp logAddr =>
    match s.table.getFreeIdxInClients cfg with
    | none => some ({ s with pc := .assertFailed }, none)
    | some i =>
      some ({ table := s.table.addClient i logChd isUdp logAddr (pkIpAddr2str logAddr), pc := .accept }, some .ok)
  | .unsub logAddr =>
    match s.table.getClientIdxByAddrStr (pkIpAddr2str logAddr) with
    | none => some ({ s with pc := .accept }, some .okIgnored)
    | some i => some ({ table := s.table.delClient i, pc := .accept }, some .ok)

def Control.step (cfg : Config) (s : Control) : Input → Option (Control × Option Resp)
  | .request ctlAddr bufs c => if s.pc = .accept then some (ctlHandleReq s ctlAddr bufs c) else none
  | .go hd connected => s.go cfg hd connected
  | .flush out udpbuf buf =>
    if s.pc = .assertFailed then none
    else some ({ s with table := (flushWithShstack cfg out udpbuf buf s.table).1 }, none)

/-- The counters are static and start at zero; the array holds anything. -/
def Control.Init (cfg : Config) (s : Control) : Prop :=
  s.table.clients.length = cfg.maxClients ∧ s.table.clientsNum = 0 ∧ s.table.udpClientsNum = 0 ∧ s.pc = .accept

/-- The control server and the flushing tasks; a label is the input of the step and the response it ends with. -/
def control (cfg : Config) : System Control (Input × Option Resp) where
  Init := Control.Init cfg
  Step s l t := s.step cfg l.1 = some (t, l.2)

theorem ctlReadReq_bytes (bufs : ReqBufs) {r : Request} (hproto : r.proto.length = protoSize) (c : Conn) :
    ctlReadReq bufs (some r.bytes :: c) = some r := by
  have hne : r.proto ≠ [] := by
    intro h
    rw [h] at hproto
    cases hproto
  have hmagic := pkTcpRecvn_append magic (by decide) bufs.magic_length (r.proto ++ (htons r.port ++ [r.op])) c
  have hrecv := pkTcpRecvn_append r.proto hne (bufs.proto_length.trans hproto.symm) (htons r.port ++ [r.op]) c
  have hport : pkTcpRecvn (some (htons r.port ++ [r.op]) :: c) bufs.port 2 = (true, htons r.port, some [r.op] :: c) :=
    pkTcpRecvn_append (htons r.port) (by simp [htons]) bufs.port_length [r.op] c
  have hop : pkTcpRecvn (some [r.op] :: c) bufs.op 1 = (true, [r.op], c) :=
    pkTcpRecvn_append [r.op] (by simp) bufs.op_length [] c
  rw [if_neg (by simp)] at hmagic hrecv
  rw [hproto] at hrecv
  simp only [ctlReadReq, Request.bytes, hmagic, hrecv, hport, hop, ntohs_htons]
  simp

/-- What a step can do. -/
inductive Moves (cfg : Config) (s : Control) : Input → Control × Option Resp → Prop
  | flush {out udpbuf buf} : s.pc ≠ .assertFailed → Moves cfg s (.flush out udpbuf buf)
      ({ s with table := (flushWithShstack cfg out udpbuf buf s.table).1 }, none)
  | malformed {ctlAddr bufs c} : s.pc = .accept → (∀ r ∈ ctlReadReq bufs c, r.op ≠ opSub ∧ r.op ≠ opUnsub) →
      Moves cfg s (.request ctlAddr bufs c) (s, some .errMalformedReq)
  | sub {ctlAddr bufs c r} : s.pc = .accept → ctlReadReq bufs c = some r → r.op = opSub →
      Moves cfg s (.request ctlAddr bufs c) ({ s with pc := .lookup r.proto ⟨ctlAddr.addr, r.port⟩ }, none)
  | unsub {ctlAddr bufs c r} : s.pc = .accept → ctlReadReq bufs c = some r → r.op = opUnsub →
      Moves cfg s (.request ctlAddr bufs c) ({ s with pc := .unsub ⟨ctlAddr.addr, r.port⟩ }, none)
  | found {proto a hd connected} : s.pc = .lookup proto a → pkIpAddr2str a ∈ s.table.live.map Client.addrStr →
      Moves cfg s (.go hd connected) ({ s with pc := .accept }, some .okIgnored)
  | absent {proto a hd connected} : s.pc = .lookup proto a → pkIpAddr2str a ∉ s.table.live.map Client.addrStr →
      Moves cfg s (.go hd connected) ({ s with pc := .room proto a }, none)
  | room {proto a hd connected i} : s.pc = .room proto a → s.table.getFreeIdxInClients cfg = some i →
      Moves cfg s (.go hd connected) ({ s with pc := .connect proto a }, none)
  | refused {proto a hd connected resp} : s.pc = .room proto a ∨ s.pc = .connect proto a → resp.status = '-' →
      Moves cfg s (.go hd connected) ({ s with pc := .accept }, some resp)
  | connected {proto a p logChd connected} : s.pc = .connect proto a → protoOf proto = some p →
      Moves cfg s (.go (some logChd) connected) ({ s with pc := .insert logChd (p = .udp) a }, none)
  | assertFailed {logChd isUdp a hd connected} : s.pc = .insert logChd isUdp a →
      s.table.getFreeIdxInClients cfg = none →
      Moves cfg s (.go hd connected) ({ s with pc := .assertFailed }, none)
  | inserted {logChd isUdp a hd connected i} : s.pc = .insert logChd isUdp a →
      s.table.getFreeIdxInClients cfg = some i → Moves cfg s (.go hd connected)
      (⟨s.table.addClient i logChd isUdp a (pkIpAddr2str a), .accept⟩, some .ok)
  | unknown {a hd connected} : s.pc = .unsub a → pkIpAddr2str a ∉ s.table.live.map Client.addrStr →
      Moves cfg s (.go hd connected) ({ s with pc := .accept }, some .okIgnored)
  | removed {a hd connected i} : s.pc = .unsub a → s.table.getClientIdxByAddrStr (pkIpAddr2str a) = some i →
      Moves cfg s (.go hd connected) (⟨s.table.delClient i, .accept⟩, some .ok)

variable {cfg : Config} {s t : Control} {i : Input} {resp : Option Resp}

theorem Control.go_cases {hd : Option Int} {connected : Bool} (h : s.go cfg hd connected = some (t, resp)) :
    Moves cfg s (.go hd connected) (t, resp) := by
  rw [Control.go] at h
  split at h
  · cases h
  · cases h
  · next hpc =>
    split at h <;> cases h
    · next hidx =>
      obtain ⟨c, hc, haddr⟩ := Table.getClientIdxByAddrStr_eq_some hidx
      exact .found hpc (List.mem_map.2 ⟨c, List.mem_of_getElem? hc, haddr⟩)
    · next hidx => exact .absent hpc (Table.getClientIdxByAddrStr_eq_none.1 hidx)
  · next hpc =>
    split at h <;> cases h
    · exact .refused (.inl hpc) rfl
    · next hidx => exact .room hpc hidx
  · next hpc =>
    split at h
    · cases h
      exact .refused (.inr hpc) rfl
    · cases h
      exact .refused (.inr hpc) rfl
    · next hproto =>
      cases h
      exact .connected hpc hproto
    · next hproto =>
      split at h <;> cases h
      · exact .connected hpc hproto
      · exact .refused (.inr hpc) rfl
  · next hpc =>
    split at h <;> cases h
    · next hidx => exact .assertFailed hpc hidx
    · next hidx => exact .inserted hpc hidx
  · next hpc =>
    split at h <;> cases h
    · next hidx => exact .unknown hpc (Table.getClientIdxByAddrStr_eq_none.1 hidx)
    · next hidx => exact .removed hpc hidx

theorem Control.step_cases (h : s.step cfg i = some (t, resp)) : Moves cfg s i (t, resp) := by
  cases i with
  | request ctlAddr bufs c =>
    rw [Control.step, Option.ite_none_right_eq_some] at h
    obtain ⟨hpc, h⟩ := h
    rw [ctlHandleReq] at h
    split at h
    · next hread =>
      cases h
      exact .malformed hpc (by simp [hread])
    · next r hread =>
      dsimp only at h
      split at h
      · next hop =>
        cases h
        exact .sub hpc hread hop
      · next hsub =>
        split at h
        · next hop =>
          cases h
          exact .unsub hpc hread hop
        · next hunsub =>
          cases h
          exact .malformed hpc (by simp [hread, hsub, hunsub])
  | go hd connected => exact Control.go_cases h
  | flush out udpbuf buf =>
    rw [Control.step, Option.ite_none_left_eq_some] at h
    obtain ⟨hpc, h⟩ := h
    cases h
    exact .flush hpc

/-! ### The invariant -/

/-- The address that the control task has looked up and not found. -/
def Pc.Pending : Pc → IpAddr → Prop
  | .room _ a, b | .connect _ a, b | .insert _ _ a, b => a = b
  | _, _ => False

def Pc.Placed : Pc → Prop
  | .connect _ _ | .insert _ _ _ => True
  | _ => False

/-- The table is in order and the control task may still rely on what it has checked. -/
structure Control.Inv (cfg : Config) (s : Control) : Prop where
  counted : s.table.Counted cfg
  distinct : s.table.Distinct
  absent : ∀ a, s.pc.Pending a → pkIpAddr2str a ∉ s.table.live.map Client.addrStr
  placed : s.pc.Placed → s.table.live.length < cfg.maxClients
  asserted : s.pc ≠ .assertFailed

theorem flush_sublist (out : Outcomes) (udpbuf buf : List UInt8) {t : Table} (h : t.Counted cfg) :
    (flushWithShstack cfg out udpbuf buf t).1.Counted cfg ∧
      ((flushWithShstack cfg out udpbuf buf t).1.live.map Client.fixed).Sublist (t.live.map Client.fixed) := by
  obtain ⟨hcounted, hlive, -⟩ := flushLoop_eq_flushList cfg out buf buf.length 0 udpbuf h
  refine ⟨hcounted, ?_⟩
  rw [flushWithShstack, hlive]
  exact flushList_sublist cfg out buf buf.length 0 t.live

theorem Control.Inv.of_sublist (h : s.Inv cfg) {t : Table} {pc : Pc} (hcounted : t.Counted cfg)
    (hsub : (t.live.map Client.fixed).Sublist (s.table.live.map Client.fixed)) (hpc : pc = s.pc ∨ pc = .accept) :
    Control.Inv cfg ⟨t, pc⟩ := by
  have haddr := addrStr_sublist hsub
  have hlen := hsub.length_le
  rw [List.length_map, List.length_map] at hlen
  rcases hpc with rfl | rfl
  · refine ⟨hcounted, h.distinct.sublist haddr, fun a ha hmem => h.absent a ha (haddr.mem hmem), fun hp => ?_, h.asserted⟩
    have := h.placed hp
    dsimp only
    omega
  · exact ⟨hcounted, h.distinct.sublist haddr, fun _ hp => hp.elim, fun hp => hp.elim, Pc.noConfusion⟩

theorem Control.Inv.of_pc (h : s.Inv cfg) {pc : Pc}
    (habsent : ∀ a, pc.Pending a → pkIpAddr2str a ∉ s.table.live.map Client.addrStr)
    (hplaced : pc.Placed → s.table.live.length < cfg.maxClients) (hassert : pc ≠ .assertFailed) :
    Control.Inv cfg { s with pc := pc } := ⟨h.counted, h.distinct, habsent, hplaced, hassert⟩

theorem Control.Inv.idle (h : s.Inv cfg) : Control.Inv cfg { s with pc := .accept } :=
  h.of_pc (fun _ hp => hp.elim) (fun hp => hp.elim) Pc.noConfusion

theorem Control.Inv.lt_of_free (h : s.Inv cfg) {i : Nat} (hfree : s.table.getFreeIdxInClients cfg = some i) :
    s.table.live.length < cfg.maxClients ∧ i = s.table.live.length := by
  rw [h.counted.getFreeIdxInClients_eq, Option.ite_none_left_eq_some, Option.some_inj] at hfree
  have := h.counted.length_live
  have := h.counted.le_max
  omega

theorem Control.Inv.insert (h : s.Inv cfg) {logChd : Int} {isUdp : Bool} {a : IpAddr}
    (hpc : s.pc = .insert logChd isUdp a) :
    Control.Inv cfg ⟨s.table.addClient s.table.live.length logChd isUdp a (pkIpAddr2str a), .accept⟩ := by
  have hroom : s.table.live.length ≠ cfg.maxClients := (h.placed (by rw [hpc]; trivial)).ne
  obtain ⟨c, hlive, -, haddr, -⟩ := h.counted.live_addClient hroom logChd isUdp a (pkIpAddr2str a)
  refine ⟨h.counted.addClient hroom _ _ _ _, ?_, fun _ hp => hp.elim, fun hp => hp.elim, Pc.noConfusion⟩
  rw [Table.Distinct]
  dsimp only
  rw [hlive, List.map_append, List.map_singleton, haddr]
  refine List.Nodup.append h.distinct (List.nodup_singleton _) ?_
  rw [List.disjoint_singleton]
  exact h.absent a (by rw [hpc]; rfl)

theorem Control.Inv.step (h : s.Inv cfg) (hstep : s.step cfg i = some (t, resp)) : t.Inv cfg := by
  cases Control.step_cases hstep with
  | flush =>
    obtain ⟨hcounted, hsub⟩ := flush_sublist _ _ _ h.counted
    exact h.of_sublist hcounted hsub (.inl rfl)
  | malformed => exact h
  | sub | unsub => exact h.of_pc (fun _ hp => hp.elim) (fun hp => hp.elim) Pc.noConfusion
  | found | refused | unknown => exact h.idle
  | absent _ habsent =>
    refine h.of_pc ?_ (fun hp => hp.elim) Pc.noConfusion
    rintro b rfl
    exact habsent
  | room hpc hfree =>
    exact h.of_pc (fun b hb => h.absent b (by rw [hpc]; exact hb)) (fun _ => (h.lt_of_free hfree).1) Pc.noConfusion
  | connected hpc =>
    exact h.of_pc (fun b hb => h.absent b (by rw [hpc]; exact hb)) (fun _ => h.placed (by rw [hpc]; trivial))
      Pc.noConfusion
  | assertFailed hpc hfree =>
    have hplaced := h.placed (by rw [hpc]; trivial)
    rw [h.counted.getFreeIdxInClients_eq, if_neg hplaced.ne] at hfree
    cases hfree
  | inserted hpc hfree =>
    obtain ⟨-, rfl⟩ := h.lt_of_free hfree
    exact h.insert hpc
  | removed _ hidx =>
    obtain ⟨c, hc, -⟩ := Table.getClientIdxByAddrStr_eq_some hidx
    have hlt := (List.getElem?_eq_some_iff.1 hc).1
    refine h.of_sublist (h.counted.delClient hlt) ?_ (.inr rfl)
    rw [h.counted.live_delClient hlt]
    exact (List.eraseIdx_sublist _ _).map _

theorem Control.Inv.init (h : s.Init cfg) : s.Inv cfg := by
  obtain ⟨hsize, hnum, hudp, hpc⟩ := h
  have hlive : s.table.live = [] := by rw [Table.live, hnum]; rfl
  refine ⟨⟨hsize, by omega, by omega, ?_⟩, ?_, ?_, ?_, ?_⟩
  · rw [hudp, hlive]
    rfl
  · rw [Table.Distinct, hlive]
    exact List.nodup_nil
  · rw [hpc]
    exact fun _ hp => hp.elim
  · rw [hpc]
    exact fun hp => hp.elim
  · rw [hpc]
    exact Pc.noConfusion

theorem Control.inv_of_reachable (h : (control cfg).Reachable s) : s.Inv cfg :=
  h.invariant (fun _ => Control.Inv.init) fun _ _ _ hs _ hstep => hs.step hstep

theorem Control.reachable_step (hs : (control cfg).Reachable s) (hstep : s.step cfg i = some (t, resp)) :
    (control cfg).Reachable t :=
  .step (l := (i, resp)) hs trivial hstep

/-! ### The table under concurrency -/

/-- What a step does to the entries: a flush removes some and leaves the others as they are up to the packet counter, the control task removes some or adds one of a new address at the end. -/
def OrderKept (i : Input) (t t' : Table) : Prop :=
  match i with
  | .flush _ _ _ => (t'.live.map Client.fixed).Sublist (t.live.map Client.fixed)
  | _ => t'.live.Sublist t.live ∨ ∃ c : Client, c.addrStr ∉ t.live.map Client.addrStr ∧ t'.live = t.live ++ [c]

theorem Control.Inv.orderKept (h : s.Inv cfg) (hstep : s.step cfg i = some (t, resp)) :
    OrderKept i s.table t.table := by
  cases Control.step_cases hstep with
  | flush => exact (flush_sublist _ _ _ h.counted).2
  | malformed | sub | unsub | found | absent | room | refused | connected | assertFailed | unknown =>
    exact .inl (List.Sublist.refl _)
  | inserted hpc hfree =>
    obtain ⟨hlt, rfl⟩ := h.lt_of_free hfree
    obtain ⟨c, hlive, -, haddr, -⟩ := h.counted.live_addClient hlt.ne _ _ _ _
    refine .inr ⟨c, ?_, hlive⟩
    rw [haddr]
    exact h.absent _ (by rw [hpc]; rfl)
  | removed _ hidx =>
    obtain ⟨c, hc, -⟩ := Table.getClientIdxByAddrStr_eq_some hidx
    refine .inl ?_
    dsimp only
    rw [h.counted.live_delClient (List.getElem?_eq_some_iff.1 hc).1]
    exact List.eraseIdx_sublist _ _

/-- **The table is in order after every critical section, and the assertion of `ctl_sub` never fails.** -/
theorem table_inOrder (hs : (control cfg).Reachable s) :
    (0 ≤ s.table.clientsNum ∧ s.table.clientsNum ≤ cfg.maxClients) ∧ (s.table.live.map Client.addrStr).Nodup ∧
      s.table.udpClientsNum = udpCount s.table.live ∧ s.pc ≠ .assertFailed ∧
      ∀ i resp t, s.step cfg i = some (t, resp) → OrderKept i s.table t.table := by
  have h := Control.inv_of_reachable hs
  exact ⟨⟨h.counted.nonneg, h.counted.le_max⟩, h.distinct, h.counted.udp, h.asserted, fun _ _ _ => h.orderKept⟩

def Control.run (cfg : Config) : Control → List Input → Option Control
  | s, [] => some s
  | s, i :: is => (s.step cfg i).bind fun r => r.1.run cfg is

theorem Control.reachable_run (is : List Input) (hs : (control cfg).Reachable s) (h : s.run cfg is = some t) :
    (control cfg).Reachable t := by
  induction is generalizing s with
  | nil =>
    cases h
    exact hs
  | cons i is ih =>
    rw [Control.run, Option.bind_eq_some_iff] at h
    obtain ⟨⟨u, resp⟩, hstep, hrun⟩ := h
    exact ih (reachable_step hs hstep) hrun

def zeroBufs : ReqBufs :=
  ⟨List.replicate 10 0, List.replicate 3 0, List.replicate 2 0, [0], rfl, rfl, rfl, rfl⟩

def emptyControl : Control :=
  ⟨⟨[⟨0, [], ⟨false, 0, 0, 0⟩⟩], 0, 0⟩, .accept⟩

def oneClient : Config := ⟨1, 4, by decide⟩

theorem emptyControl_init : emptyControl.Init oneClient := ⟨rfl, rfl, rfl, rfl⟩

def localRequest (r : Request) : Input := .request ⟨0x7f000001, 4000⟩ zeroBufs [some r.bytes]

def subUdp : List Input :=
  [localRequest ⟨Proto.udp.bytes, 9, opSub⟩, .go none false, .go none false, .go (some 3) false, .go none false]

def udpClient : Control :=
  ⟨⟨[⟨3, pkIpAddr2str ⟨0x7f000001, 9⟩, ⟨true, 0, ⟨0x7f000001, 9⟩⟩⟩], 1, 1⟩, .accept⟩

theorem udpClient_reachable : (control oneClient).Reachable udpClient :=
  Control.reachable_run subUdp (.init emptyControl_init) rfl

theorem table_inOrder_subUdp : udpClient.table.udpClientsNum = udpCount udpClient.table.live :=
  (table_inOrder udpClient_reachable).2.2.1

/-- A flush changes the packet counter of an entry it keeps. -/
theorem flush_changes_packCnt : ¬ ∀ cfg s i resp t, (control cfg).Reachable s → s.step cfg i = some (t, resp) →
    ∀ c ∈ s.table.live, ∀ d ∈ t.table.live, c.addrStr = d.addrStr → c = d := by
  intro h
  have := h _ _ (.flush (fun _ _ n => some n) [] [0]) _ _ udpClient_reachable rfl
  revert this
  decide

end Vedruino.Netlog
