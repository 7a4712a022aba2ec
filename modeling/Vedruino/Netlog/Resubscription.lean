import Vedruino.Netlog.Session
import Vedruino.Netlog.Subscriptions

/-!
# When the client resubscribes

The client trusts any boot message whose session id differs from the one it has recorded. That is right as long as the recorded session is over. `Stage` says where the client is in its exchange with the server; while it is in its main loop the session recorded is either that of the running server, which then has its entry, or one of the past, and then the running server knows nothing of the client.
-/

namespace Vedruino.Netlog

open Ip

/-! ### Steps of the server that are for others -/

def Pc.Names : Pc → IpAddr → Prop
  | .lookup _ a, b | .room _ a, b | .connect _ a, b | .insert _ _ a, b | .unsub a, b => a = b
  | .accept, _ | .assertFailed, _ => False

def Input.Spares (a : IpAddr) : Input → Prop
  | .request ctlAddr bufs c => ∀ r ∈ ctlReadReq bufs c, ⟨ctlAddr.addr, r.port⟩ ≠ a
  | .go _ _ | .flush _ _ _ => True

section

variable {cfg : Config} {s t : Control} {i : Input} {resp : Option Resp} {a : IpAddr}

theorem Control.not_names_step (hstep : s.step cfg i = some (t, resp)) (hi : i.Spares a) (hpc : ¬ s.pc.Names a) :
    ¬ t.pc.Names a := by
  cases Control.step_cases hstep with
  | flush | malformed => exact hpc
  | sub _ hread | unsub _ hread => exact hi _ hread
  | found | refused | assertFailed | inserted | unknown | removed => exact id
  | absent h | room h | connected h =>
    rw [h] at hpc
    exact hpc

theorem Control.Inv.absent_step (h : s.Inv cfg) (hpc : ¬ s.pc.Names a) {hd : Option Int} {connected : Bool}
    (hstep : s.step cfg (.go hd connected) = some (t, resp))
    (habsent : pkIpAddr2str a ∉ s.table.live.map Client.addrStr) : pkIpAddr2str a ∉ t.table.live.map Client.addrStr := by
  cases Control.step_cases hstep with
  | found | absent | room | refused | connected | assertFailed | unknown => exact habsent
  | inserted hpc' hfree =>
    obtain ⟨hlt, rfl⟩ := h.lt_of_free hfree
    obtain ⟨c, hlive, -, haddr, -⟩ := h.counted.live_addClient hlt.ne _ _ _ _
    rw [hpc'] at hpc
    dsimp only
    rw [hlive, List.map_append, List.mem_append, List.map_singleton, List.mem_singleton, haddr]
    intro h
    rcases h with hmem | heq
    · exact habsent hmem
    · exact hpc (pkIpAddr2str_eq_iff.1 heq).symm
  | removed _ hidx =>
    obtain ⟨d, hd, -⟩ := Table.getClientIdxByAddrStr_eq_some hidx
    dsimp only
    rw [h.counted.live_delClient (List.getElem?_eq_some_iff.1 hd).1]
    exact fun hmem => habsent (((List.eraseIdx_sublist _ _).map _).mem hmem)

private theorem pass_kept {out : Outcomes} {off : Nat} {data : List UInt8} {skip : Bool} {cs : List Client} {c : Client}
    (hc : c ∈ cs) (hsends : ∀ s ∈ (pass out off data skip cs).2, s.client.addrStr = c.addrStr → s.res.isNone = false) :
    c.fixed ∈ (pass out off data skip cs).1.map Client.fixed := by
  induction cs generalizing skip with
  | nil => cases hc
  | cons d cs ih =>
    cases skip with
    | true =>
      rw [List.mem_cons] at hc
      rcases hc with rfl | hc
      · exact List.mem_map_of_mem List.mem_cons_self
      · exact List.mem_cons_of_mem _ (ih hc hsends)
    | false =>
      rw [pass] at hsends ⊢
      dsimp only at hsends ⊢
      have hrest : c ∈ cs → c.fixed ∈ (pass out off data (sendClient out off data data d).res.isNone cs).1.map Client.fixed :=
        fun hmem => ih hmem fun s hs => hsends s (List.mem_cons_of_mem _ hs)
      rw [List.mem_cons] at hc
      rcases hc with rfl | hc
      · rw [if_neg (by rw [hsends _ List.mem_cons_self rfl]; exact Bool.false_ne_true), List.map_cons, Client.sent_fixed]
        exact List.mem_cons_self
      · split
        · exact hrest hc
        · exact List.mem_cons_of_mem _ (hrest hc)

private theorem flushList_kept {out : Outcomes} {buf : List UInt8} {fuel sent : Nat} {cs : List Client} {c : Client}
    (hc : c.fixed ∈ cs.map Client.fixed)
    (hsends : World.sendFailed c.addrStr (flushList cfg out buf fuel sent cs).2 = false) :
    c.fixed ∈ (flushList cfg out buf fuel sent cs).1.map Client.fixed := by
  induction fuel generalizing sent cs with
  | zero => exact hc
  | succ fuel ih =>
    rw [flushList] at hsends ⊢
    split at hsends
    · next hlt =>
      rw [if_pos hlt]
      rw [World.sendFailed, List.any_cons, Bool.or_eq_false_iff] at hsends
      obtain ⟨hblock, hrest⟩ := hsends
      refine ih ?_ hrest
      obtain ⟨d, hd, heq⟩ := List.mem_map.1 hc
      rw [← heq]
      refine pass_kept hd fun s hs haddr => ?_
      have hne := List.any_eq_false.1 hblock s hs
      rwa [decide_eq_true (haddr.trans (Client.addrStr_eq_of_fixed heq)), Bool.true_and, Bool.not_eq_true] at hne
    · next hge =>
      rw [if_neg hge]
      exact hc

theorem flush_kept {out : Outcomes} {udpbuf buf : List UInt8} {t : Table} (h : t.Counted cfg) {c : Client} (hc : c ∈ t.live)
    (hsends : World.sendFailed c.addrStr (flushWithShstack cfg out udpbuf buf t).2 = false) :
    c.fixed ∈ (flushWithShstack cfg out udpbuf buf t).1.live.map Client.fixed := by
  obtain ⟨-, hlive, hblocks⟩ := flushLoop_eq_flushList cfg out buf buf.length 0 udpbuf h
  rw [flushWithShstack, hblocks] at hsends
  rw [flushWithShstack, hlive]
  exact flushList_kept (List.mem_map_of_mem hc) hsends

theorem Control.Inv.kept_step (h : s.Inv cfg) (hpc : ¬ s.pc.Names a) {hd : Option Int} {connected : Bool}
    (hstep : s.step cfg (.go hd connected) = some (t, resp)) {c : Client} (hc : c ∈ s.table.live)
    (haddr : c.addrStr = pkIpAddr2str a) : c ∈ t.table.live := by
  cases Control.step_cases hstep with
  | found | absent | room | refused | connected | assertFailed | unknown => exact hc
  | inserted hpc' hfree =>
    obtain ⟨hlt, rfl⟩ := h.lt_of_free hfree
    obtain ⟨d, hlive, -⟩ := h.counted.live_addClient hlt.ne _ _ _ _
    dsimp only
    rw [hlive]
    exact List.mem_append_left _ hc
  | removed hpc' hidx =>
    obtain ⟨d, hd, hdaddr⟩ := Table.getClientIdxByAddrStr_eq_some hidx
    rw [hpc'] at hpc
    dsimp only
    rw [h.counted.live_delClient (List.getElem?_eq_some_iff.1 hd).1, mem_eraseIdx_iff h.distinct hd]
    refine ⟨hc, fun heq => hpc ?_⟩
    exact pkIpAddr2str_eq_iff.1 (hdaddr.symm.trans (heq.symm.trans haddr))

end

/-! ### What the server knows and when -/

namespace World

/-- The running server has an entry for the client, and over TCP its connection is the one the client holds or accepts next. -/
def Holds (p : Setup) (w : World) : Prop :=
  ∃ c ∈ w.control.table.live, c.Serves (p.proto, p.logAddr) ∧
    (p.proto = .tcp → w.tcpLog = some c.hd ∨ w.tcpLog = none ∧ w.tcpServ.head? = some c.hd)

/-- The server knows the client while the session that the client has recorded is running and nothing has failed. -/
def Known (p : Setup) (w : World) : Prop :=
  w.boardInfo.map BoardInfo.sessionId = some w.sessionId → w.failed = false → w.Holds p

/-- A boot message that arrives while the session recorded is the running one is not of an earlier boot. -/
def Current (p : Setup) (w : World) (bs : List UInt8) : Prop :=
  ∀ b ∈ bcast bs, b.macAddr = p.macAddr → w.boardInfo.map BoardInfo.sessionId = some w.sessionId →
    b.sessionId = w.sessionId

/-- Requests are read as they were sent or not at all, and no boot message comes late. -/
def Timely (p : Setup) (w : World) : Event → Prop
  | .ask _ bufs c => ∀ r ∈ ctlReadReq bufs c, r = p.request
  | .packet bs => w.Current p bs
  | _ => True

/-- Over TCP, no connection waits to be accepted when a boot message passes the filter. -/
def NoneWaiting (p : Setup) (w : World) : Event → Prop
  | .packet bs => p.proto = .tcp → ∀ cur ∈ w.boardInfo, ∀ b ∈ bcast bs, BoardInfo.bcastFilter cur b = true → w.tcpServ = []
  | _ => True

def Guard (p : Setup) (w : World) (e : Event) : Prop := w.Timely p e ∧ w.NoneWaiting p e

instance (p : Setup) (w : World) : DecidablePred (w.Timely p)
  | .ask _ bufs c => inferInstanceAs (Decidable (∀ r ∈ ctlReadReq bufs c, r = p.request))
  | .packet bs => inferInstanceAs (Decidable (∀ b ∈ bcast bs, _ → _ → b.sessionId = w.sessionId))
  | .restart _ _ | .request _ _ _ | .go _ _ | .flush _ _ _ | .answer _ | .accept | .recvFailed | .recvUdp _ | .exit =>
    .isTrue trivial

instance (p : Setup) (w : World) : DecidablePred (w.NoneWaiting p)
  | .packet bs => inferInstanceAs (Decidable (_ → ∀ cur ∈ w.boardInfo, ∀ b ∈ bcast bs, _ → w.tcpServ = []))
  | .restart _ _ | .ask _ _ _ | .request _ _ _ | .go _ _ | .flush _ _ _ | .answer _ | .accept | .recvFailed
  | .recvUdp _ | .exit => .isTrue trivial

instance (p : Setup) (w : World) : DecidablePred (w.Guard p) := fun _ => inferInstanceAs (Decidable (_ ∧ _))

/-! ### The exchange of the client with the server -/

def Absent (p : Setup) (w : World) : Prop := pkIpAddr2str p.logAddr ∉ w.control.table.live.map Client.addrStr

/-- The server has answered the client's request in a boot, the running one or one of the past. -/
def Subscribed (p : Setup) (w : World) (id : SessionId) (boot : Nat) : Prop :=
  boot = w.past.length ∧ id = w.sessionId ∧ (w.failed = false → w.Holds p) ∨
    boot < w.past.length ∧ id ∈ w.past ∧ w.Absent p

def Idle (p : Setup) (w : World) : Prop := w.serving = false ∧ ¬ w.control.pc.Names p.logAddr

/-- Over TCP the client has no connection, accepted or not. -/
def Unconnected (p : Setup) (w : World) : Prop := p.proto = .tcp → w.tcpLog = none ∧ w.tcpServ = []

/-- The control task is at a section of the client's request. -/
def Underway (p : Setup) (w : World) : Pc → Prop
  | .lookup proto a | .room proto a | .connect proto a => proto = p.proto.bytes ∧ a = p.logAddr ∧ w.Unconnected p
  | .insert hd isUdp a =>
    isUdp = decide (p.proto = .udp) ∧ a = p.logAddr ∧ (p.proto = .tcp → w.tcpLog = none ∧ w.tcpServ = [hd])
  | .accept | .unsub _ | .assertFailed => False

/-- Where the client and the server are in their exchange. -/
inductive Stage (p : Setup) (w : World) : Prop
  | ctlSub : w.phase = .ctlSub → w.Idle p → w.resp = none → w.Absent p → w.Unconnected p → Stage p w
  | underway : w.phase = .handleCtlResp → w.serving = true → w.resp = none → w.Absent p →
      w.Underway p w.control.pc → Stage p w
  | lost : w.phase = .handleCtlResp → w.Idle p → w.resp = none → Stage p w
  | answered {r : Resp} {id : SessionId} {boot : Nat} : w.phase = .handleCtlResp → w.Idle p →
      w.resp = some (ctlResp ⟨p.macAddr, id⟩ r, boot) → (r.status = '+' → w.Subscribed p id boot) → Stage p w
  | mainLoop {id : SessionId} : w.phase = .mainLoop → w.Idle p → w.resp = none →
      w.boardInfo = some ⟨p.macAddr, id⟩ → w.Subscribed p id w.subBoot → Stage p w
  | exited : w.phase = .exited → Stage p w

structure Inv (p : Setup) (w : World) : Prop where
  control : w.control.Inv p.cfg
  fresh : w.sessionId ∉ w.past
  stage : w.Stage p

variable {p : Setup} {w w' : World}

theorem protoOf_bytes (proto : Proto) : protoOf proto.bytes = some proto := by
  cases proto <;> rfl

theorem serve_of_idle (h : w.serving = false) (r : Control × Option Resp) : w.serve p r = { w with control := r.1 } := by
  simp only [serve, h, Bool.false_and, Bool.false_eq_true, if_false]

theorem Stage.idle_or (h : w.Stage p) :
    w.Idle p ∨ w.phase = .exited ∨
      (w.phase = .handleCtlResp ∧ w.serving = true ∧ w.resp = none ∧ w.Absent p ∧ w.Underway p w.control.pc) := by
  cases h with
  | ctlSub _ hidle | lost _ hidle | answered _ hidle | mainLoop _ hidle => exact .inl hidle
  | underway hphase hserving hresp habsent hunder => exact .inr (.inr ⟨hphase, hserving, hresp, habsent, hunder⟩)
  | exited hphase => exact .inr (.inl hphase)

/-! ### What a step of the server leaves as it is -/

section

variable {s : Control} {failed : Bool} {sockets : Nat}

theorem Holds.aside (h : w.Holds p)
    (hkept : ∀ c ∈ w.control.table.live, c.addrStr = pkIpAddr2str p.logAddr → c.fixed ∈ s.table.live.map Client.fixed) :
    Holds p { w with control := s, failed := failed, sockets := sockets } := by
  obtain ⟨c, hc, hserves, htcp⟩ := h
  obtain ⟨d, hd, heq⟩ := List.mem_map.1 (hkept c hc hserves.addrStr)
  refine ⟨d, hd, hserves.of_fixed heq.symm, fun hp => ?_⟩
  rw [Client.hd_eq_of_fixed heq]
  exact htcp hp

theorem Subscribed.aside {id : SessionId} {boot : Nat} (h : w.Subscribed p id boot)
    (habsent : w.Absent p → pkIpAddr2str p.logAddr ∉ s.table.live.map Client.addrStr)
    (hkept : failed = false → w.failed = false ∧ ∀ c ∈ w.control.table.live, c.addrStr = pkIpAddr2str p.logAddr →
      c.fixed ∈ s.table.live.map Client.fixed) :
    Subscribed p { w with control := s, failed := failed, sockets := sockets } id boot := by
  rcases h with ⟨hboot, hid, hholds⟩ | ⟨hboot, hid, habs⟩
  · refine .inl ⟨hboot, hid, fun hfailed => ?_⟩
    obtain ⟨hfailed', hkept'⟩ := hkept hfailed
    exact (hholds hfailed').aside hkept'
  · exact .inr ⟨hboot, hid, habsent habs⟩

/-- A step of the server that is not for the client and does not fail to send to it leaves the client where it is. -/
theorem Stage.aside (h : w.Stage p)
    (habsent : w.Absent p → pkIpAddr2str p.logAddr ∉ s.table.live.map Client.addrStr)
    (hkept : failed = false → w.failed = false ∧ ∀ c ∈ w.control.table.live, c.addrStr = pkIpAddr2str p.logAddr →
      c.fixed ∈ s.table.live.map Client.fixed)
    (hnames : ¬ w.control.pc.Names p.logAddr → ¬ s.pc.Names p.logAddr) (hpc : w.serving = true → s.pc = w.control.pc) :
    Stage p { w with control := s, failed := failed, sockets := sockets } := by
  cases h with
  | ctlSub hphase hidle hresp habs hconn =>
    exact .ctlSub hphase ⟨hidle.1, hnames hidle.2⟩ hresp (habsent habs) hconn
  | underway hphase hserving hresp habs hunder =>
    refine .underway hphase hserving hresp (habsent habs) ?_
    dsimp only
    rw [hpc hserving]
    exact hunder
  | lost hphase hidle hresp => exact .lost hphase ⟨hidle.1, hnames hidle.2⟩ hresp
  | answered hphase hidle hresp hsub =>
    exact .answered hphase ⟨hidle.1, hnames hidle.2⟩ hresp fun hstatus => (hsub hstatus).aside habsent hkept
  | mainLoop hphase hidle hresp hinfo hsub =>
    exact .mainLoop hphase ⟨hidle.1, hnames hidle.2⟩ hresp hinfo (hsub.aside habsent hkept)
  | exited hphase => exact .exited hphase

end

/-! ### One step -/

theorem Inv.flush (h : w.Inv p) {out : Outcomes} {udpbuf buf : List UInt8}
    (hstep : w.step p (.flush out udpbuf buf) = some w') : w'.Inv p := by
  obtain ⟨⟨s, resp⟩, hs, rfl⟩ := Option.map_eq_some_iff.1 hstep
  refine ⟨h.control.step hs, h.fresh, ?_⟩
  cases Control.step_cases hs with
  | flush hpc =>
    refine h.stage.aside (fun habs hmem => ?_) (fun hfailed => ?_) id fun _ => rfl
    · exact habs ((addrStr_sublist (flush_sublist out udpbuf buf h.control.counted).2).mem hmem)
    · rw [Bool.or_eq_false_iff] at hfailed
      refine ⟨hfailed.1, fun c hc haddr => flush_kept h.control.counted hc ?_⟩
      rw [haddr]
      exact hfailed.2

theorem Inv.request (h : w.Inv p) {ctlAddr : IpAddr} {bufs : ReqBufs} {c : Conn}
    (hstep : w.step p (.request ctlAddr bufs c) = some w') : w'.Inv p := by
  rw [World.step, Option.ite_none_right_eq_some] at hstep
  obtain ⟨hothers, hstep⟩ := hstep
  obtain ⟨⟨s, resp⟩, hs, rfl⟩ := Option.map_eq_some_iff.1 hstep
  refine ⟨h.control.step hs, h.fresh, ?_⟩
  have haccept : w.control.pc = .accept ∧ s.table = w.control.table := by
    cases Control.step_cases hs with
    | malformed hpc | sub hpc | unsub hpc => exact ⟨hpc, rfl⟩
  rcases h.stage.idle_or with hidle | hexited | ⟨-, -, -, -, hunder⟩
  · rw [serve_of_idle hidle.1]
    rcases hothers with hexited | hothers
    · exact .exited hexited
    · refine h.stage.aside (fun habs => ?_) (fun hfailed => ⟨hfailed, fun d hd _ => ?_⟩) (fun hnames => ?_) fun hserving => ?_
      · rw [haccept.2]
        exact habs
      · rw [haccept.2]
        exact List.mem_map_of_mem hd
      · exact Control.not_names_step hs hothers hnames
      · rw [hidle.1] at hserving
        cases hserving
  · exact .exited hexited
  · rw [haccept.1] at hunder
    exact hunder.elim

theorem Inv.ask (h : w.Inv p) {port : BitVec 16} {bufs : ReqBufs} {c : Conn}
    (hguard : w.Guard p (.ask port bufs c)) (hstep : w.step p (.ask port bufs c) = some w') : w'.Inv p := by
  rw [World.step, Option.ite_none_right_eq_some] at hstep
  obtain ⟨⟨hphase, -⟩, hstep⟩ := hstep
  obtain ⟨⟨s, resp⟩, hs, rfl⟩ := Option.map_eq_some_iff.1 hstep
  refine ⟨h.control.step hs, h.fresh, ?_⟩
  cases h.stage with
  | ctlSub _ hidle hresp habs hconn =>
    cases Control.step_cases hs with
    | malformed hpc hread => exact .answered rfl ⟨rfl, hidle.2⟩ rfl fun hstatus => absurd hstatus (by decide)
    | sub hpc hread =>
      obtain rfl := hguard.1 _ hread
      exact .underway rfl rfl rfl habs ⟨rfl, rfl, hconn⟩
    | unsub hpc hread hop =>
      obtain rfl := hguard.1 _ hread
      cases hop
  | underway hphase' | lost hphase' | answered hphase' | mainLoop hphase' | exited hphase' =>
    cases hphase.symm.trans hphase'

theorem tcpServ_proceed {r : Control × Option Resp} (h : ∀ hd isUdp a, r.1.pc ≠ .insert hd isUdp a) :
    (w.proceed p r).tcpServ = w.tcpServ := if_neg (h _ _ _)

theorem Unconnected.proceed (h : w.Unconnected p) {r : Control × Option Resp}
    (hpc : ∀ hd isUdp a, r.1.pc ≠ .insert hd isUdp a) : Unconnected p (w.proceed p r) := by
  intro hp
  rw [tcpServ_proceed hpc]
  exact h hp

theorem Stage.proceed {s : Control} (hphase : w.phase = .handleCtlResp) (hserving : w.serving = true)
    (habs : pkIpAddr2str p.logAddr ∉ s.table.live.map Client.addrStr) (hunder : Underway p (w.proceed p (s, none)) s.pc) :
    Stage p (w.proceed p (s, none)) := by
  refine .underway hphase ?_ ?_ habs hunder
  · simp [World.proceed, serve, hserving]
  · simp [World.proceed, serve, hserving]

theorem Stage.answer {s : Control} {resp : Resp} (hphase : w.phase = .handleCtlResp) (hserving : w.serving = true)
    (hpc : s.pc = .accept) (hsub : resp.status = '+' → Holds p (w.proceed p (s, some resp))) :
    Stage p (w.proceed p (s, some resp)) := by
  have hresp : (w.proceed p (s, some resp)).resp = some (ctlResp ⟨p.macAddr, w.sessionId⟩ resp, w.past.length) := by
    simp [World.proceed, serve, hserving]
  refine .answered hphase ⟨?_, ?_⟩ hresp fun hstatus => .inl ⟨rfl, rfl, fun _ => hsub hstatus⟩
  · simp [World.proceed, serve]
  · show ¬ s.pc.Names _
    rw [hpc]
    exact id

theorem Inv.underway (h : w.Inv p) (hphase : w.phase = .handleCtlResp) (hserving : w.serving = true)
    (habs : w.Absent p) (hunder : w.Underway p w.control.pc) {hd : Option Int} {connected : Bool}
    (hhd : ∀ k ∈ hd, k = w.sockets) {r : Control × Option Resp}
    (hs : w.control.step p.cfg (.go hd connected) = some r) : Stage p (w.proceed p r) := by
  obtain ⟨s, resp⟩ := r
  cases Control.step_cases hs with
  | found hpc hmem =>
    rw [hpc] at hunder
    obtain ⟨-, rfl, -⟩ := hunder
    exact absurd hmem habs
  | absent hpc | room hpc =>
    rw [hpc] at hunder
    obtain ⟨hproto, ha, hconn⟩ := hunder
    exact .proceed hphase hserving habs ⟨hproto, ha, hconn.proceed fun _ _ _ => Pc.noConfusion⟩
  | refused hpc hstatus =>
    exact .answer hphase hserving rfl fun hplus => absurd (hstatus.symm.trans hplus) (by decide)
  | connected hpc hproto =>
    rw [hpc] at hunder
    obtain ⟨rfl, rfl, hconn⟩ := hunder
    rw [protoOf_bytes] at hproto
    cases hproto
    obtain rfl := hhd _ rfl
    refine .proceed hphase hserving habs ⟨rfl, rfl, fun hp => ⟨(hconn hp).1, ?_⟩⟩
    have hpc' : Pc.insert (w.sockets : Int) (p.proto = .udp) p.logAddr = .insert w.sockets false p.logAddr := by
      rw [hp]
      rfl
    have hserv : w.tcpServ ++ [(w.sockets : Int)] = [(w.sockets : Int)] := by
      rw [(hconn hp).2]
      rfl
    exact (if_pos hpc').trans hserv
  | assertFailed => exact absurd rfl (h.control.step hs).asserted
  | inserted hpc hfree =>
    rw [hpc] at hunder
    obtain ⟨rfl, rfl, hconn⟩ := hunder
    obtain ⟨-, rfl⟩ := h.control.lt_of_free hfree
    obtain ⟨c, hserves, hhd, hlive⟩ := h.control.subs_insert hpc
    refine .answer hphase hserving rfl fun _ => ⟨c, ?_, hserves, fun hp => .inr ⟨(hconn hp).1, ?_⟩⟩
    · exact hlive ▸ List.mem_append_right _ (List.mem_singleton_self c)
    · rw [tcpServ_proceed fun _ _ _ => Pc.noConfusion, (hconn hp).2, hhd]
      rfl
  | unknown hpc | removed hpc =>
    rw [hpc] at hunder
    exact hunder.elim

theorem Inv.go (h : w.Inv p) {socket connected : Bool} (hstep : w.step p (.go socket connected) = some w') :
    w'.Inv p := by
  obtain ⟨⟨s, resp⟩, hs, rfl⟩ := Option.map_eq_some_iff.1 hstep
  refine ⟨h.control.step hs, h.fresh, ?_⟩
  rcases h.stage.idle_or with ⟨hserving, hnames⟩ | hexited | ⟨hphase, hserving, -, habs, hunder⟩
  · have hnames' := Control.not_names_step hs trivial hnames
    have hserv : (w.proceed p (s, resp)).tcpServ = w.tcpServ := by
      refine if_neg fun hpc => hnames' ?_
      dsimp only at hpc
      rw [hpc]
      rfl
    have heq : w.proceed p (s, resp) = { w with control := s, failed := w.failed, sockets := w.sockets + 1 } := by
      rw [World.proceed] at hserv ⊢
      dsimp only at hserv ⊢
      rw [hserv, serve_of_idle hserving]
    rw [heq]
    refine h.stage.aside (h.control.absent_step hnames hs) (fun hfailed => ⟨hfailed, fun c hc haddr => ?_⟩)
      (fun _ => hnames') fun htrue => ?_
    · exact List.mem_map_of_mem (h.control.kept_step hnames hs hc haddr)
    · rw [hserving] at htrue
      cases htrue
  · exact .exited hexited
  · refine h.underway hphase hserving habs hunder (fun k hk => ?_) hs
    rw [Option.mem_def, Option.ite_none_right_eq_some] at hk
    exact (Option.some.inj hk.2).symm

theorem Subscribed.restart {id : SessionId} {boot : Nat} (h : w.Subscribed p id boot) (sessionId : SessionId)
    {memory : Control} (hmemory : memory.Init p.cfg) :
    Subscribed p { w with sessionId := sessionId, past := w.sessionId :: w.past, control := memory, serving := false }
      id boot := by
  refine .inr ⟨?_, ?_, ?_⟩
  · have hle : boot ≤ w.past.length := by
      rcases h with ⟨rfl, -⟩ | ⟨hlt, -⟩
      · exact Nat.le_refl _
      · exact Nat.le_of_lt hlt
    exact Nat.lt_succ_of_le hle
  · rcases h with ⟨-, rfl, -⟩ | ⟨-, hid, -⟩
    · exact List.mem_cons_self
    · exact List.mem_cons_of_mem _ hid
  · rw [Absent, Table.live, hmemory.2.1]
    exact List.not_mem_nil

theorem Inv.restart (h : w.Inv p) {sessionId : SessionId} {memory : Control}
    (hstep : w.step p (.restart sessionId memory) = some w') : w'.Inv p := by
  rw [World.step, Option.ite_none_right_eq_some] at hstep
  obtain ⟨⟨hfresh, hmemory⟩, hstep⟩ := hstep
  cases hstep
  have hnames : ¬ memory.pc.Names p.logAddr := by
    rw [hmemory.2.2.2]
    exact id
  have habs : pkIpAddr2str p.logAddr ∉ memory.table.live.map Client.addrStr := by
    rw [Table.live, hmemory.2.1]
    exact List.not_mem_nil
  refine ⟨.init hmemory, hfresh, ?_⟩
  cases h.stage with
  | ctlSub hphase _ hresp _ hconn => exact .ctlSub hphase ⟨rfl, hnames⟩ hresp habs hconn
  | underway hphase _ hresp | lost hphase _ hresp => exact .lost hphase ⟨rfl, hnames⟩ hresp
  | answered hphase _ hresp hsub =>
    exact .answered hphase ⟨rfl, hnames⟩ hresp fun hstatus => (hsub hstatus).restart sessionId hmemory
  | mainLoop hphase _ hresp hinfo hsub =>
    exact .mainLoop hphase ⟨rfl, hnames⟩ hresp hinfo (hsub.restart sessionId hmemory)
  | exited hphase => exact .exited hphase

theorem Inv.answer (h : w.Inv p) {c : Conn} (hstep : w.step p (.answer c) = some w') : w'.Inv p := by
  rw [World.step] at hstep
  split at hstep
  · next bs boot hphase hresp =>
    rw [Option.ite_none_right_eq_some] at hstep
    obtain ⟨hbegin, hstep⟩ := hstep
    split at hstep <;> cases hstep
    · next b hb =>
      refine ⟨h.control, h.fresh, ?_⟩
      cases h.stage with
      | answered _ hidle hresp' hsub =>
        cases hresp.symm.trans hresp'
        obtain ⟨hstatus, rfl⟩ := handleCtlResp_eq_some hbegin hb
        exact .mainLoop rfl hidle rfl rfl (hsub hstatus)
      | underway _ _ hresp' | lost _ _ hresp' => cases hresp.symm.trans hresp'
      | ctlSub hphase' | mainLoop hphase' | exited hphase' => cases hphase.symm.trans hphase'
    · exact ⟨h.control, h.fresh, .exited rfl⟩
  · cases hstep

theorem Inv.mainLoop (h : w.Inv p) (hphase : w.phase = .mainLoop) :
    w.Idle p ∧ w.resp = none ∧ ∃ id, w.boardInfo = some ⟨p.macAddr, id⟩ ∧ w.Subscribed p id w.subBoot := by
  cases h.stage with
  | mainLoop _ hidle hresp hinfo hsub => exact ⟨hidle, hresp, _, hinfo, hsub⟩
  | ctlSub hphase' | underway hphase' | lost hphase' | answered hphase' | exited hphase' =>
    cases hphase.symm.trans hphase'

theorem handleBcast_eq_or (p : Setup) (w : World) (bs : List UInt8) :
    (w.handleBcast p bs = w ∧ ∀ cur ∈ w.boardInfo, ∀ b ∈ bcast bs, BoardInfo.bcastFilter cur b = false) ∨
      ∃ cur ∈ w.boardInfo, ∃ b ∈ bcast bs, BoardInfo.bcastFilter cur b = true ∧ w.handleBcast p bs = w.discard p b := by
  rw [handleBcast]
  cases hinfo : w.boardInfo with
  | none => exact .inl ⟨rfl, by simp⟩
  | some cur =>
    cases hb : bcast bs with
    | none => exact .inl ⟨rfl, by simp⟩
    | some b =>
      cases hfilter : BoardInfo.bcastFilter cur b with
      | false => exact .inl ⟨by simp [hfilter], by simp [hfilter]⟩
      | true => exact .inr ⟨cur, rfl, b, rfl, hfilter, by simp [hfilter]⟩

theorem Inv.discards_iff (h : w.Inv p) (hphase : w.phase = .mainLoop) (bs : List UInt8) :
    ((w.handleBcast p bs).phase = .ctlSub → w.subBoot < w.past.length) ↔ w.Current p bs := by
  obtain ⟨-, -, id, hinfo, hsub⟩ := h.mainLoop hphase
  rcases handleBcast_eq_or p w bs with ⟨heq, hfilter⟩ | ⟨cur, hcur, b, hb, hfilter, heq⟩
  · refine iff_of_true (fun hctlSub => ?_) fun b hb hmac hid => ?_
    · rw [heq, hphase] at hctlSub
      cases hctlSub
    · rw [hinfo] at hid
      obtain rfl := Option.some.inj hid
      by_contra hne
      have := hfilter _ hinfo b hb
      rw [BoardInfo.bcastFilter_iff.2 ⟨hmac, hne⟩] at this
      cases this
  · rw [hinfo] at hcur
    obtain rfl := Option.some.inj hcur
    obtain ⟨hmac, hne⟩ := BoardInfo.bcastFilter_iff.1 hfilter
    rw [heq, Current]
    constructor
    · intro hlt b' hb' _ hid
      rcases hsub with ⟨hboot, -⟩ | ⟨-, hpast, -⟩
      · exact absurd (hlt rfl) (by omega)
      · rw [hinfo] at hid
        obtain rfl := Option.some.inj hid
        exact absurd hpast h.fresh
    · intro hcurrent _
      rcases hsub with ⟨-, hid, -⟩ | ⟨hlt, -⟩
      · refine absurd ((hcurrent b hb hmac ?_).trans hid.symm) hne
        rw [hinfo, hid]
        rfl
      · exact hlt

theorem Inv.packet (h : w.Inv p) {bs : List UInt8} (hguard : w.Guard p (.packet bs))
    (hstep : w.step p (.packet bs) = some w') : w'.Inv p := by
  rw [World.step, Option.ite_none_right_eq_some] at hstep
  obtain ⟨⟨hphase, -⟩, hstep⟩ := hstep
  cases hstep
  obtain ⟨hcurrent, hnone⟩ := hguard
  rcases handleBcast_eq_or p w bs with ⟨heq, -⟩ | ⟨cur, hcur, b, hb, hfilter, heq⟩
  · rw [heq]
    exact h
  · have hlt := (h.discards_iff hphase bs).2 hcurrent (by rw [heq]; rfl)
    obtain ⟨hidle, hresp, id, -, hsub⟩ := h.mainLoop hphase
    rw [heq]
    refine ⟨h.control, h.fresh, .ctlSub rfl hidle hresp ?_ fun hp => ⟨if_pos hp, hnone hp cur hcur b hb hfilter⟩⟩
    rcases hsub with ⟨hboot, -⟩ | ⟨-, -, habs⟩
    · omega
    · exact habs

theorem Inv.accept (h : w.Inv p) (hstep : w.step p .accept = some w') : w'.Inv p := by
  rw [World.step] at hstep
  split at hstep
  · next hd hds hphase hserv =>
    cases hstep
    refine ⟨h.control, h.fresh, ?_⟩
    obtain ⟨hidle, hresp, id, hinfo, hsub⟩ := h.mainLoop hphase
    refine .mainLoop hphase hidle hresp hinfo ?_
    rcases hsub with ⟨hboot, hid, hholds⟩ | ⟨hboot, hid, habs⟩
    · refine .inl ⟨hboot, hid, fun hfailed => ?_⟩
      obtain ⟨c, hc, hserves, htcp⟩ := hholds hfailed
      refine ⟨c, hc, hserves, fun hp => .inl ?_⟩
      dsimp only
      rcases htcp hp with hlog | ⟨hlog, hhead⟩
      · rw [hlog]
        rfl
      · rw [hlog, ← hhead, hserv]
        rfl
    · exact .inr ⟨hboot, hid, habs⟩
  · cases hstep

theorem Subscribed.fail {id : SessionId} {boot : Nat} (h : w.Subscribed p id boot) :
    Subscribed p { w with tcpLog := none, failed := true } id boot := by
  rcases h with ⟨hboot, hid, -⟩ | ⟨hboot, hid, habs⟩
  · exact .inl ⟨hboot, hid, fun hfailed => Bool.noConfusion hfailed⟩
  · exact .inr ⟨hboot, hid, habs⟩

theorem Inv.step (h : w.Inv p) {e : Event} (hguard : w.Guard p e) (hstep : w.step p e = some w') : w'.Inv p := by
  cases e with
  | restart sessionId memory => exact h.restart hstep
  | ask port bufs c => exact h.ask hguard hstep
  | request ctlAddr bufs c => exact h.request hstep
  | go socket connected => exact h.go hstep
  | flush out udpbuf buf => exact h.flush hstep
  | answer c => exact h.answer hstep
  | packet bs => exact h.packet hguard hstep
  | accept => exact h.accept hstep
  | recvFailed =>
    rw [World.step, Option.ite_none_right_eq_some] at hstep
    obtain ⟨⟨hphase, -⟩, hstep⟩ := hstep
    cases hstep
    obtain ⟨hidle, hresp, id, hinfo, hsub⟩ := h.mainLoop hphase
    exact ⟨h.control, h.fresh, .mainLoop hphase hidle hresp hinfo hsub.fail⟩
  | recvUdp bs =>
    rw [World.step, Option.ite_none_right_eq_some] at hstep
    obtain ⟨⟨hphase, -⟩, hstep⟩ := hstep
    cases hstep
    obtain ⟨hidle, hresp, id, hinfo, hsub⟩ := h.mainLoop hphase
    cases bs with
    | nil => exact ⟨h.control, h.fresh, .exited rfl⟩
    | cons cnt bs => exact ⟨h.control, h.fresh, .mainLoop hphase hidle hresp hinfo hsub⟩
  | exit =>
    cases hstep
    exact ⟨h.control, h.fresh, .exited rfl⟩

theorem Inv.init (h : w.Init p) : w.Inv p := by
  obtain ⟨hpast, hcontrol, hserving, hresp, hphase, -, hlog, hserv, -⟩ := h
  refine ⟨.init hcontrol, ?_, .ctlSub hphase ⟨hserving, ?_⟩ hresp ?_ fun _ => ⟨hlog, hserv⟩⟩
  · rw [hpast]
    exact List.not_mem_nil
  · rw [hcontrol.2.2.2]
    exact id
  · rw [Absent, Table.live, hcontrol.2.1]
    exact List.not_mem_nil

theorem Inv.known (h : w.Inv p) (hphase : w.phase = .mainLoop) : w.Known p := by
  intro hid hfailed
  obtain ⟨-, -, id, hinfo, hsub⟩ := h.mainLoop hphase
  rw [hinfo] at hid
  obtain rfl := Option.some.inj hid
  rcases hsub with ⟨-, -, hholds⟩ | ⟨-, hpast, -⟩
  · exact hholds hfailed
  · exact absurd hpast h.fresh

/-- Before it asks, the client is unknown to the server and has no connection. -/
theorem Inv.ctlSub (h : w.Inv p) (hphase : w.phase = .ctlSub) : w.Absent p ∧ w.Unconnected p := by
  cases h.stage with
  | ctlSub _ _ _ habs hconn => exact ⟨habs, hconn⟩
  | mainLoop hphase' | underway hphase' | lost hphase' | answered hphase' | exited hphase' =>
    cases hphase.symm.trans hphase'

/-- When the running server has granted the request, it knows the client. -/
theorem Inv.granted (h : w.Inv p) (hphase : w.phase = .handleCtlResp) {bs : List UInt8} {boot : Nat}
    (hresp : w.resp = some (bs, boot)) : ∃ r id, bs = ctlResp ⟨p.macAddr, id⟩ r ∧
      (r.status = '+' → boot = w.past.length → id = w.sessionId ∧ (w.failed = false → w.Holds p)) := by
  cases h.stage with
  | answered _ _ hresp' hsub =>
    obtain ⟨rfl, rfl⟩ := Prod.mk.inj (Option.some.inj (hresp.symm.trans hresp'))
    refine ⟨_, _, rfl, fun hstatus hboot => ?_⟩
    rcases hsub hstatus with ⟨-, hid, hholds⟩ | ⟨hlt, -⟩
    · exact ⟨hid, hholds⟩
    · omega
  | underway _ _ hresp' | lost _ _ hresp' => cases hresp.symm.trans hresp'
  | ctlSub hphase' | mainLoop hphase' | exited hphase' => cases hphase.symm.trans hphase'

end World

/-- **In a run without late boot messages the client discards its connection or counter and turns to `ctl_sub` after restarts only. In its main loop the server knows it; in `ctl_sub` it is unknown until the server grants the request.** -/
theorem resubscribes_after_restart {p : Setup} {w : World} (hs : (world p).ReachableUnder (World.Guard p) w) :
    (∀ bs w', w.step p (.packet bs) = some w' →
      ((w'.phase = .ctlSub → w.subBoot < w.past.length) ↔ w.Current p bs)) ∧
    (w.phase = .mainLoop → w.Known p) ∧
    (w.phase = .ctlSub → w.Absent p ∧ w.Unconnected p) ∧
    (w.phase = .handleCtlResp → ∀ bs boot, w.resp = some (bs, boot) → ∃ r id, bs = ctlResp ⟨p.macAddr, id⟩ r ∧
      (r.status = '+' → boot = w.past.length → id = w.sessionId ∧ (w.failed = false → w.Holds p))) := by
  have h : w.Inv p := hs.invariant (fun _ => World.Inv.init) fun _ _ _ hinv hguard hstep => hinv.step hguard hstep
  refine ⟨fun bs w' hstep => ?_, h.known, h.ctlSub, fun hphase bs boot => h.granted hphase⟩
  rw [World.step, Option.ite_none_right_eq_some] at hstep
  obtain ⟨⟨hphase, -⟩, hstep⟩ := hstep
  cases hstep
  exact h.discards_iff hphase bs

/-! ### Runs of a TCP client -/

def tcpSetup : Setup := ⟨oneClient, List.Vector.replicate _ 0, ⟨0x7f000001, 9⟩, .tcp⟩

def bootInfo (k : UInt8) : BoardInfo := ⟨tcpSetup.macAddr, List.Vector.replicate _ k⟩

def started : World where
  sessionId := (bootInfo 0).sessionId
  past := []
  control := emptyControl
  serving := false
  resp := none
  phase := .ctlSub
  boardInfo := none
  tcpLog := none
  tcpServ := []
  udpPackCnt := 127
  sockets := 0
  subBoot := 0
  failed := false

theorem started_init : started.Init tcpSetup := ⟨rfl, emptyControl_init, rfl, rfl, rfl, rfl, rfl, rfl, rfl, rfl⟩

def askSub : Event := .ask 4000 zeroBufs [some tcpSetup.request.bytes]

/-- The client asks, and the server of a boot connects to it and subscribes it. -/
def subscribe (k : UInt8) : List Event :=
  [askSub, .go false false, .go false false, .go true true, .go false false, .answer [some (ctlResp (bootInfo k) .ok)]]

def reboot : List Event := [.restart (bootInfo 1).sessionId emptyControl, .packet (bootPack (bootInfo 1))]

/-- The client has subscribed in the first boot, and in the second after its boot message. -/
def resubscribed : World where
  sessionId := (bootInfo 1).sessionId
  past := [(bootInfo 0).sessionId]
  control := ⟨⟨[⟨6, pkIpAddr2str tcpSetup.logAddr, ⟨false, 0, 0, 0⟩⟩], 1, 0⟩, .accept⟩
  serving := false
  resp := none
  phase := .mainLoop
  boardInfo := some (bootInfo 1)
  tcpLog := some 6
  tcpServ := []
  udpPackCnt := 127
  sockets := 8
  subBoot := 1
  failed := false

theorem resubscribed_reachable : (world tcpSetup).ReachableUnder (World.Guard tcpSetup) resubscribed :=
  System.reachableUnder_runSteps (subscribe 0 ++ [.accept] ++ reboot ++ subscribe 1 ++ [.accept]) (.init started_init) rfl

theorem resubscribes_after_restart_tcp : resubscribed.Holds tcpSetup :=
  (resubscribes_after_restart resubscribed_reachable).2.1 rfl rfl rfl

/-- The client has discarded its connection for a boot message of the first boot, and the server has ignored its request. -/
def forgotten : World := { resubscribed with tcpLog := none, sockets := 9 }

private theorem resubscribed_discards : resubscribed.step tcpSetup (.packet (bootPack (bootInfo 0))) =
    some (resubscribed.discard tcpSetup (bootInfo 0)) := rfl

/-- A boot message that comes late makes the client discard a connection that the server goes on with. -/
theorem stale_boot_discards :
    (¬ ∀ p w, (world p).Reachable w → ∀ bs w', w.step p (.packet bs) = some w' → w'.phase = .ctlSub →
      w.subBoot < w.past.length) ∧ ¬ ∀ p w, (world p).Reachable w → w.phase = .mainLoop → w.Known p := by
  have hreach : (world tcpSetup).Reachable resubscribed := resubscribed_reachable.mono fun _ _ _ => trivial
  constructor
  · intro h
    exact absurd (h _ _ hreach _ _ resubscribed_discards rfl) (by decide)
  · intro h
    have hforgotten : (world tcpSetup).Reachable forgotten :=
      System.reachable_runSteps [.packet (bootPack (bootInfo 0)), askSub, .go false false,
        .answer [some (ctlResp (bootInfo 1) .okIgnored)]] hreach rfl
    obtain ⟨c, -, -, htcp⟩ := h _ _ hforgotten rfl rfl rfl
    rcases htcp rfl with hlog | ⟨-, hhead⟩
    · cases hlog
    · cases hhead

/-- A connection of the first boot that was not accepted in time is taken for that of the second. -/
theorem waiting_connection_taken :
    ¬ ∀ p w, (world p).ReachableUnder (World.Timely p) w → w.phase = .mainLoop → w.Known p := by
  intro h
  have hreach : (world tcpSetup).ReachableUnder (World.Timely tcpSetup)
      { resubscribed with tcpLog := some 2, tcpServ := [6], sockets := 8 } :=
    System.reachableUnder_runSteps (subscribe 0 ++ reboot ++ subscribe 1 ++ [.accept]) (.init started_init) rfl
  obtain ⟨c, hc, -, htcp⟩ := h _ _ hreach rfl rfl rfl
  obtain rfl := List.mem_singleton.1 hc
  rcases htcp rfl with hlog | ⟨hlog, -⟩
  · cases hlog
  · cases hlog

end Vedruino.Netlog
