import Vedruino.Netlog.BoardInfo

/-!
# A client and the boots of its server

One client of `netlog.py` and the board that it is subscribed to. The board restarts at any time with a new session id, and the network delivers the boot messages of all its boots in any order, any number of times or not at all. The client runs its main loop, and while it is in `ctl_sub` it does nothing else. Other clients have addresses of their own, and a message with the MAC address of the board is one that the board has sent.
-/

namespace Vedruino.Netlog

open Ip

/-- What no restart changes: the board and the command line of the client. -/
structure Setup where
  cfg : Config
  macAddr : MacAddr
  /-- The host of the client and its `log_port`. -/
  logAddr : IpAddr
  /-- `args.tcp`. -/
  proto : Proto

def Setup.request (p : Setup) : Request := ⟨p.proto.bytes, p.logAddr.port, opSub⟩

/-- Where the client is: it tries to connect in `ctl_sub`, waits for the response, is in its main loop or has ended. -/
inductive Phase
  | ctlSub | handleCtlResp | mainLoop | exited
  deriving DecidableEq, Repr

/-- The server, the response on its way and the client. -/
structure World where
  sessionId : SessionId
  /-- The session ids of earlier boots, the last one first. -/
  past : List SessionId
  control : Control
  /-- The request that is being served is the client's. -/
  serving : Bool
  /-- The bytes of the response and the number of the boot that sent them. -/
  resp : Option (List UInt8 × Nat)
  phase : Phase
  boardInfo : Option BoardInfo
  /-- `socks['tcp_log']`, named by the handle of the server's end. -/
  tcpLog : Option Int
  /-- The connections waiting at `socks['tcp_serv']`. -/
  tcpServ : List Int
  udpPackCnt : BitVec 7
  /-- The number of sockets opened by the server so far, from which they have their handles. -/
  sockets : Nat
  /-- The number of the boot with the last successful subscription. -/
  subBoot : Nat
  /-- A send or receive of logs has failed since the client last turned to `ctl_sub`. -/
  failed : Bool

inductive Event
  /-- The board restarts; its static memory holds anything but the counters. -/
  | restart (sessionId : SessionId) (memory : Control)
  /-- The server takes the client's request, of which it receives a part or all in any segments. -/
  | ask (port : BitVec 16) (bufs : ReqBufs) (c : Conn)
  /-- The server takes the request of another client. -/
  | request (ctlAddr : IpAddr) (bufs : ReqBufs) (c : Conn)
  /-- The control task goes on. -/
  | go (socket connected : Bool)
  | flush (out : Outcomes) (udpbuf buf : List UInt8)
  /-- The client receives a part or all of the response. -/
  | answer (c : Conn)
  /-- A packet arrives at `socks['bcast']`. -/
  | packet (bs : List UInt8)
  /-- The client accepts a connection at `socks['tcp_serv']`. -/
  | accept
  /-- A `recv` on `socks['tcp_log']` fails. -/
  | recvFailed
  /-- A packet arrives at `socks['udp']`. -/
  | recvUdp (bs : List UInt8)
  /-- The client ends by an exception or a signal. -/
  | exit

namespace World

/-- What `recvfrom` takes of a packet and `handle_bcast` reads of that. -/
def bcast (bs : List UInt8) : Option BoardInfo := readBcast (bs.take (magic.length + BoardInfo.size))

/-- What `handle_bcast` does with a boot message that the filter lets pass, up to the call of `ctl_sub`. -/
def discard (p : Setup) (w : World) (b : BoardInfo) : World :=
  { w with
    boardInfo := some b
    tcpLog := if p.proto = .tcp then none else w.tcpLog
    udpPackCnt := if p.proto = .tcp then w.udpPackCnt else 127
    phase := .ctlSub
    failed := false }

def handleBcast (p : Setup) (w : World) (bs : List UInt8) : World :=
  match w.boardInfo, bcast bs with
  | some cur, some b => if BoardInfo.bcastFilter cur b then w.discard p b else w
  | _, _ => w

/-- `main_loop` with a packet of logs. An empty one ends the client by an `IndexError`. -/
def recvUdp (w : World) : List UInt8 → World
  | [] => { w with phase := .exited }
  | cnt :: _ => { w with udpPackCnt := cnt.toBitVec.setWidth 7 }

/-- The control task has made a step; the response to the client's request is sent. -/
def serve (p : Setup) (w : World) (r : Control × Option Resp) : World :=
  { w with
    control := r.1
    serving := w.serving && r.2.isNone
    resp := if w.serving then r.2.map fun resp => (ctlResp ⟨p.macAddr, w.sessionId⟩ resp, w.past.length) else w.resp }

/-- The control task has gone on. A connection that `pk_tcp_connect` has made to the client waits there. -/
def proceed (p : Setup) (w : World) (r : Control × Option Resp) : World :=
  { w.serve p r with
    sockets := w.sockets + 1
    tcpServ := if r.1.pc = .insert w.sockets false p.logAddr then w.tcpServ ++ [(w.sockets : Int)] else w.tcpServ }

def sendFailed (addrStr : List Char) (bs : List Block) : Bool :=
  bs.any fun b => b.sends.any fun s => s.client.addrStr = addrStr && s.res.isNone

/-- A packet with the MAC address of the board carries the session id of one of its boots. -/
def Sent (p : Setup) (w : World) (bs : List UInt8) : Prop :=
  ∀ b ∈ bcast bs, b.macAddr = p.macAddr → b.sessionId ∈ w.sessionId :: w.past

instance (p : Setup) (w : World) (bs : List UInt8) : Decidable (w.Sent p bs) :=
  inferInstanceAs (Decidable (∀ b ∈ bcast bs, b.macAddr = p.macAddr → b.sessionId ∈ w.sessionId :: w.past))

/-- The address that a request of another client names is not the client's, as long as the client runs. -/
def Others (p : Setup) (w : World) (ctlAddr : IpAddr) (bufs : ReqBufs) (c : Conn) : Prop :=
  w.phase = .exited ∨ ∀ r ∈ ctlReadReq bufs c, ⟨ctlAddr.addr, r.port⟩ ≠ p.logAddr

instance (p : Setup) (w : World) (ctlAddr : IpAddr) (bufs : ReqBufs) (c : Conn) : Decidable (w.Others p ctlAddr bufs c) :=
  inferInstanceAs (Decidable (_ ∨ ∀ r ∈ ctlReadReq bufs c, _))

instance (cfg : Config) (s : Control) : Decidable (s.Init cfg) := inferInstanceAs (Decidable (_ ∧ _ ∧ _ ∧ _))

def step (p : Setup) (w : World) : Event → Option World
  | .restart sessionId memory =>
    if sessionId ∉ w.sessionId :: w.past ∧ memory.Init p.cfg then
      some { w with sessionId, past := w.sessionId :: w.past, control := memory, serving := false }
    else none
  | .ask port bufs c =>
    if w.phase = .ctlSub ∧ c.data <+: p.request.bytes then
      (w.control.step p.cfg (.request ⟨p.logAddr.addr, port⟩ bufs c)).map
        (serve p { w with phase := .handleCtlResp, serving := true })
    else none
  | .request ctlAddr bufs c =>
    if w.Others p ctlAddr bufs c then (w.control.step p.cfg (.request ctlAddr bufs c)).map (w.serve p) else none
  | .go socket connected =>
    (w.control.step p.cfg (.go (if socket then some w.sockets else none) connected)).map (w.proceed p)
  | .flush out udpbuf buf =>
    (w.control.step p.cfg (.flush out udpbuf buf)).map fun r =>
      { w with
        control := r.1
        failed := w.failed ||
          sendFailed (pkIpAddr2str p.logAddr) (flushWithShstack p.cfg out udpbuf buf w.control.table).2 }
  | .answer c =>
    match w.phase, w.resp with
    | .handleCtlResp, some (bs, boot) =>
      if c.data <+: bs then
        match handleCtlResp c with
        | some b => some { w with phase := .mainLoop, resp := none, boardInfo := some b, subBoot := boot }
        | none => some { w with phase := .exited, resp := none }
      else none
    | _, _ => none
  | .packet bs => if w.phase = .mainLoop ∧ w.Sent p bs then some (w.handleBcast p bs) else none
  | .accept =>
    match w.phase, w.tcpServ with
    | .mainLoop, hd :: hds => some { w with tcpServ := hds, tcpLog := w.tcpLog.or (some hd) }
    | _, _ => none
  | .recvFailed =>
    if w.phase = .mainLoop ∧ w.tcpLog.isSome then some { w with tcpLog := none, failed := true } else none
  | .recvUdp bs =>
    if w.phase = .mainLoop ∧ p.proto = .udp then some (w.recvUdp bs) else none
  | .exit => some { w with phase := .exited }

/-- The client starts while the server is in its first boot. -/
def Init (p : Setup) (w : World) : Prop :=
  w.past = [] ∧ w.control.Init p.cfg ∧ w.serving = false ∧ w.resp = none ∧ w.phase = .ctlSub ∧ w.boardInfo = none ∧
    w.tcpLog = none ∧ w.tcpServ = [] ∧ w.udpPackCnt = 127 ∧ w.failed = false

end World

def world (p : Setup) : System World Event := System.ofStep (World.Init p) (World.step p)

end Vedruino.Netlog
