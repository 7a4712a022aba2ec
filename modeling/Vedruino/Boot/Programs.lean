import Vedruino.Lib.Prog
import Vedruino.I2c.Tools
import Vedruino.Netlog.Control
import Vedruino.Ota.Server

/-!
# The log lines of the firmware

What `setup` and the tasks that it starts log, with every outcome of the calls they make. A program keeps the order of the log lines, of the tasks started and stopped, and of what is done to `stdout`; the rest of the functions is in the outcomes.
-/

namespace Vedruino.Boot

/-- `main.cpp` includes the macros as the application, the files under `lib` as the library. -/
inductive Source
  | app | lib
  deriving DecidableEq, Repr

inductive Level
  | e | w | i | d | v
  deriving DecidableEq, Repr

def Level.num : Level → Int
  | .e => 1
  | .w => 2
  | .i => 3
  | .d => 4
  | .v => 5

/-- The tasks whose code logs. -/
inductive Task
  | setup | netlogCtl | ota | mqtt
  deriving DecidableEq, Repr

inductive Act
  | log (src : Source) (lvl : Level)
  /-- `pk_log_init` sets `pk_log_uartout` and `pk_btrace_mutex`. -/
  | logInit
  /-- `pk_netlog_init` sets `stdout` to `netlogout`. -/
  | netlogOut
  | start (t : Task)
  | stop (t : Task)
  deriving DecidableEq, Repr

abbrev Code := Prog Act

open Prog

def pklog (lvl : Level) : Code Unit := perform (.log .lib lvl)

def pklogApp (lvl : Level) : Code Unit := perform (.log .app lvl)

def pkLogInit : Code Unit := do
  perform .logInit
  Prog.assert

/-- A call whose failure is logged with `PKLOGE`. -/
def checked : Code Bool := do
  if ← succeeds then return true
  else
    pklog .e
    return false

/-! ### ip.c -/

/-- `socket` and `bind`. -/
def createSrvSock : Code Bool := do
  if ← checked then checked
  else return false

/-- `create_srv_sock` and `listen`. -/
def pkTcpServer : Code Bool := do
  if ← createSrvSock then checked
  else return false

def pkTcpClient : Code Bool := checked

def pkUdpClient : Code Bool := checked

def pkTcpConnect : Code Bool := checked

def pkTcpAccept : Code Bool := checked

def pkSockClose : Code Bool := checked

def maxRetriesOnEnomem : Nat := 100

/-- The retries on `ENOMEM`, then the last result of `handle_send`. -/
def pkTcpSend : Code Bool := do
  times (min (← outcome) maxRetriesOnEnomem) (pklog .w)
  checked

def pkUdpSend : Code Bool := pkTcpSend

/-- The sends that it takes. -/
def sendLoop : Nat → Code Bool
  | 0 => return true
  | n + 1 => do
    if ← pkTcpSend then sendLoop n
    else return false

def pkTcpSendn : Code Bool := do sendLoop (← outcome)

/-- The reads that it takes; at the end of the stream `handle_n_func` logs. -/
def recvLoop : Nat → Code Bool
  | 0 => return true
  | n + 1 => do
    if ← checked then
      if ← checked then recvLoop n
      else return false
    else return false

def pkTcpRecvn : Code Bool := do recvLoop (← outcome)

/-! ### mdns.c -/

/-- `nvs_flash_init`, `nvs_open`, `mdns_init` and `mdns_hostname_set`. -/
def pkMdnsInit : Code Bool := do
  pklog .d
  if ← checked then
    if ← checked then
      pklog .i
      if ← checked then
        if ← checked then
          pklog .i
          return true
        else return false
      else return false
    else return false
  else return false

/-! ### netlog.c -/

/-- The MAC address, the two mutexes, the file and its buffer are asserted to be there. -/
def pkNetlogInit : Code Unit := do
  Prog.assert
  Prog.assert
  Prog.assert
  Prog.assert
  Prog.assert
  perform .netlogOut
  if ← succeeds then perform (.start .netlogCtl)
  else halt

def bcastBootNotifies : Nat := 5

/-- The boot messages that are left, and how many were sent. -/
def bcastLoop : Nat → Nat → Code Nat
  | 0, okCnt => return okCnt
  | n + 1, okCnt => do
    if ← pkUdpSend then bcastLoop n (okCnt + 1)
    else bcastLoop n okCnt

def bcastBootNotify : Code Unit := do
  pklog .d
  pklog .i
  if ← pkUdpClient then
    let okCnt ← bcastLoop bcastBootNotifies 0
    if okCnt ≥ bcastBootNotifies / 3 then
      pklog .i
      let _ ← pkSockClose
      return
    else halt
  else halt

/-- The first calls are the searches of the table, the outcome is the protocol. -/
def ctlSub : Code Netlog.Resp := do
  if ← succeeds then
    pklog .w
    return .okIgnored
  else if ← succeeds then
    match ← outcome with
    | 0 =>
      if ← pkUdpClient then
        Prog.assert
        return .ok
      else return .errInternal
    | 1 =>
      if ← pkTcpClient then
        if ← pkTcpConnect then
          Prog.assert
          return .ok
        else return .errTcpConnect
      else return .errInternal
    | _ => return .errMalformedReq
  else return .errClientsLimit

/-- The first call is the search of the table. -/
def ctlUnsub : Code Netlog.Resp := do
  if ← succeeds then
    let _ ← pkSockClose
    return .ok
  else
    pklog .w
    return .okIgnored

/-- The four fields of a request are received; the outcome is the operation. -/
def ctlHandleReq : Code Netlog.Resp := do
  if ← pkTcpRecvn then
    if ← succeeds then
      if ← pkTcpRecvn then
        if ← pkTcpRecvn then
          if ← pkTcpRecvn then
            match ← outcome with
            | 0 => ctlSub
            | 1 => ctlUnsub
            | _ => return .errMalformedReq
          else return .errMalformedReq
        else return .errMalformedReq
      else return .errMalformedReq
    else return .errMalformedReq
  else return .errMalformedReq

def ctlReplyOk : Code Unit := do
  let _ ← pkTcpSend
  let _ ← pkTcpSend
  let _ ← pkTcpSend
  let _ ← pkSockClose
  return

def ctlReplyErr : Code Unit := do
  pklog .e
  let _ ← pkTcpSend
  let _ ← pkTcpSend
  let _ ← pkSockClose
  return

/-- The loop of `ctl_server_task`; a line is logged for each client. -/
def ctlServerLoop : Code Unit := do
  pklog .d
  if ← pkTcpAccept then
    pklog .d
    match ← ctlHandleReq with
    | .ok =>
      times 3 (pklog .i)
      times (← outcome) (pklog .i)
      ctlReplyOk
    | .okIgnored => ctlReplyOk
    | _ => ctlReplyErr
  else ctlReplyErr

def ctlServerTask : Code Unit := do
  pklog .d
  if ← pkTcpServer then
    pklog .d
    bcastBootNotify
    pklog .i
  else halt

/-! ### ota.c -/

def otaServerStart : Code Bool := do
  if ← succeeds then
    perform (.start .ota)
    return true
  else
    pklog .e
    return false

def fatalErr : Code Unit := do
  pklog .e
  perform (.stop .ota)

def eraseUpdPart : Code Bool := do
  pklog .d
  if ← checked then
    pklog .d
    return true
  else return false

/-- The blocks that are left. -/
def checkLoop : Nat → Code Ota.PartStatus
  | 0 => do
    pklog .d
    return .clean
  | n + 1 => do
    if ← checked then
      if ← succeeds then checkLoop n
      else
        pklog .d
        return .needErase
    else return .err

def checkUpdPart : Code Ota.PartStatus := do
  pklog .d
  if ← checked then checkLoop (← outcome)
  else return .err

def startServer : Code Unit := do
  if ← pkTcpServer then pklog .i
  else fatalErr

def serverTask : Code Unit := do
  if ← checked then
    Prog.assert
    pklog .i
    match ← checkUpdPart with
    | .clean => startServer
    | .needErase =>
      if ← eraseUpdPart then startServer
      else fatalErr
    | .err => fatalErr
  else fatalErr

/-- The reads and writes of the firmware; at the end of the stream nothing is logged. -/
def firmwareLoop : Nat → Code Bool
  | 0 => return true
  | n + 1 => do
    if ← checked then
      if ← succeeds then
        if ← checked then firmwareLoop n
        else return false
      else return false
    else return false

/-- `true` where the firmware is to be booted. The MD5 is ignored, as the macro for it is never defined. -/
def handleReq : Code Bool := do
  if ← pkTcpRecvn then
    if ← succeeds then
      if ← pkTcpRecvn then
        if ← succeeds then
          if ← pkTcpRecvn then
            pklog .i
            if ← succeeds then
              pklog .i
              if ← firmwareLoop (← outcome) then
                pklog .i
                checked
              else return false
            else return false
          else return false
        else return false
      else return false
    else return false
  else return false

/-- The loop of `server_task`, which ends in a restart. -/
def serverLoop : Code Unit := do
  if ← pkTcpAccept then
    pklog .i
    if ← handleReq then
      let _ ← pkTcpSendn
      let _ ← pkSockClose
      pklog .w
      halt
    else
      pklog .e
      let _ ← pkTcpSendn
      let _ ← pkTcpSendn
      let _ ← pkSockClose
      if ← succeeds then
        if ← eraseUpdPart then return
        else
          let _ ← pkSockClose
          fatalErr
      else return
  else return

/-! ### mqtt.c -/

/-- The task of esp-mqtt ends with its client. -/
def pkMqttDelete : Code Unit := do
  let _ ← checked
  if ← checked then perform (.stop .mqtt)
  else return

/-- The queue, the callback task, the client, the handler and the start of the client, then the bit that is waited for. -/
def pkMqttConnect : Code Bool := do
  if ← checked then
    if ← checked then
      if ← checked then
        if ← checked then
          if ← checked then
            perform (.start .mqtt)
            pklog .i
            match ← outcome with
            | 0 =>
              pklog .i
              return true
            | 1 =>
              pklog .e
              pkMqttDelete
              return false
            | _ =>
              pklog .w
              return true
          else return false
        else return false
      else return false
    else return false
  else return false

/-- `xSemaphoreTake` and `bsearch`. -/
def findCallback : Code Bool := do
  if ← checked then succeeds
  else return false

def mqttEventData : Code Unit := do
  pklog .v
  if ← checked then
    if ← findCallback then
      if ← succeeds then
        if ← checked then
          let _ ← checked
          return
        else return
      else return
    else pklog .w
  else return

/-- The outcome is the event. -/
def mqttEventHandler : Code Unit := do
  match ← outcome with
  | 0 => pklog .i
  | 1 => pklog .w
  | 2 | 3 | 4 => pklog .v
  | 5 => mqttEventData
  | 6 => pklog .e
  | _ => pklog .v

/-! ### i2c_tools.cpp, without a multiplexer -/

def pkI2cBegin : Code Unit := do
  Prog.assert
  Prog.assert

/-- The outcome is what `endTransmission` returns. -/
def scanAddress : Code Unit := do
  match ← outcome with
  | 0 => pklog .i
  | 2 => return
  | _ => pklog .w

def pkI2cScanCurrentLine : Code Unit := do
  Prog.assert
  pklog .i
  times I2c.scanAddresses.length scanAddress
  pklog .i
  Prog.assert

def pkI2cScan : Code Unit := do
  Prog.assert
  pkI2cScanCurrentLine
  Prog.assert

/-! ### What the functions perform -/

/-- A log line of the library, or the end of a task other than `setup`. -/
def LibAct : Act → Prop
  | .log src _ => src = .lib
  | .stop t => t ≠ .setup
  | _ => False

/-- A log line of the library that is not an error. -/
def QuietLibAct : Act → Prop
  | .log src lvl => src = .lib ∧ lvl ≠ .e
  | _ => False

theorem pklog_all (lvl : Level) : (pklog lvl).All LibAct := ⟨rfl, trivial⟩

theorem checked_all : checked.All LibAct := all_branch all_succeeds trivial (all_seq (pklog_all .e) trivial)

theorem pkTcpServer_all : pkTcpServer.All LibAct :=
  all_branch (all_branch checked_all checked_all trivial) checked_all trivial

theorem pkTcpSend_all : pkTcpSend.All LibAct :=
  all_outcome fun _ => all_seq (All.times (pklog_all .w) _) checked_all

theorem pkTcpSendn_all : pkTcpSendn.All LibAct := by
  refine all_outcome fun n => ?_
  induction n with
  | zero => trivial
  | succ n ih => exact all_branch pkTcpSend_all ih trivial

theorem pkTcpRecvn_all : pkTcpRecvn.All LibAct := by
  refine all_outcome fun n => ?_
  induction n with
  | zero => trivial
  | succ n ih => exact all_branch checked_all (all_branch checked_all ih trivial) trivial

theorem pkMdnsInit_all : pkMdnsInit.All LibAct :=
  all_seq (pklog_all .d) (all_branch checked_all (all_branch checked_all (all_seq (pklog_all .i) (all_branch checked_all
    (all_branch checked_all (all_seq (pklog_all .i) trivial) trivial) trivial)) trivial) trivial)

theorem bcastLoop_all (n okCnt : Nat) : (bcastLoop n okCnt).All LibAct := by
  induction n generalizing okCnt with
  | zero => trivial
  | succ n ih => exact all_branch pkTcpSend_all (ih _) (ih _)

theorem bcastBootNotify_all : bcastBootNotify.All LibAct := by
  refine all_seq (pklog_all .d) (all_seq (pklog_all .i) (all_branch checked_all ?_ trivial))
  refine (bcastLoop_all _ _).bind fun okCnt => ?_
  split
  · exact all_seq (pklog_all .i) (checked_all.bind fun _ => trivial)
  · trivial

theorem ctlSub_all : ctlSub.All LibAct := by
  refine all_branch all_succeeds (all_seq (pklog_all .w) trivial) (all_branch all_succeeds (all_outcome fun n => ?_) trivial)
  split
  · exact all_branch checked_all (all_seq all_assert trivial) trivial
  · exact all_branch checked_all (all_branch checked_all (all_seq all_assert trivial) trivial) trivial
  · trivial

theorem ctlUnsub_all : ctlUnsub.All LibAct :=
  all_branch all_succeeds (checked_all.bind fun _ => trivial) (all_seq (pklog_all .w) trivial)

theorem ctlHandleReq_all : ctlHandleReq.All LibAct := by
  refine all_branch pkTcpRecvn_all (all_branch all_succeeds (all_branch pkTcpRecvn_all (all_branch pkTcpRecvn_all
    (all_branch pkTcpRecvn_all (all_outcome fun n => ?_) trivial) trivial) trivial) trivial) trivial
  split
  · exact ctlSub_all
  · exact ctlUnsub_all
  · trivial

theorem ctlReplyOk_all : ctlReplyOk.All LibAct :=
  pkTcpSend_all.bind fun _ => pkTcpSend_all.bind fun _ => pkTcpSend_all.bind fun _ => checked_all.bind fun _ => trivial

theorem ctlReplyErr_all : ctlReplyErr.All LibAct :=
  all_seq (pklog_all .e) (pkTcpSend_all.bind fun _ => pkTcpSend_all.bind fun _ => checked_all.bind fun _ => trivial)

theorem ctlServerLoop_all : ctlServerLoop.All LibAct := by
  refine all_seq (pklog_all .d) (all_branch checked_all (all_seq (pklog_all .d) (ctlHandleReq_all.bind fun resp => ?_))
    ctlReplyErr_all)
  split
  · exact all_seq (All.times (pklog_all .i) 3) (all_outcome fun n => all_seq (All.times (pklog_all .i) n) ctlReplyOk_all)
  · exact ctlReplyOk_all
  · exact ctlReplyErr_all

theorem ctlServerTask_all : ctlServerTask.All LibAct :=
  all_seq (pklog_all .d) (all_branch pkTcpServer_all (all_seq (pklog_all .d) (all_seq bcastBootNotify_all (pklog_all .i)))
    trivial)

theorem fatalErr_all : fatalErr.All LibAct := all_seq (pklog_all .e) ⟨Task.noConfusion, trivial⟩

theorem eraseUpdPart_all : eraseUpdPart.All LibAct :=
  all_seq (pklog_all .d) (all_branch checked_all (all_seq (pklog_all .d) trivial) trivial)

theorem checkUpdPart_all : checkUpdPart.All LibAct := by
  refine all_seq (pklog_all .d) (all_branch checked_all (all_outcome fun n => ?_) trivial)
  induction n with
  | zero => exact all_seq (pklog_all .d) trivial
  | succ n ih => exact all_branch checked_all (all_branch all_succeeds ih (all_seq (pklog_all .d) trivial)) trivial

theorem startServer_all : startServer.All LibAct := all_branch pkTcpServer_all (pklog_all .i) fatalErr_all

theorem serverTask_all : serverTask.All LibAct := by
  refine all_branch checked_all (all_seq all_assert (all_seq (pklog_all .i) (checkUpdPart_all.bind fun status => ?_)))
    fatalErr_all
  cases status with
  | clean => exact startServer_all
  | needErase => exact all_branch eraseUpdPart_all startServer_all fatalErr_all
  | err => exact fatalErr_all

theorem firmwareLoop_all (n : Nat) : (firmwareLoop n).All LibAct := by
  induction n with
  | zero => trivial
  | succ n ih => exact all_branch checked_all (all_branch all_succeeds (all_branch checked_all ih trivial) trivial) trivial

theorem handleReq_all : handleReq.All LibAct :=
  all_branch pkTcpRecvn_all (all_branch all_succeeds (all_branch pkTcpRecvn_all (all_branch all_succeeds
    (all_branch pkTcpRecvn_all (all_seq (pklog_all .i) (all_branch all_succeeds (all_seq (pklog_all .i)
      (all_outcome fun n => all_branch (firmwareLoop_all n) (all_seq (pklog_all .i) checked_all) trivial)) trivial)) trivial)
    trivial) trivial) trivial) trivial

theorem serverLoop_all : serverLoop.All LibAct := by
  refine all_branch checked_all (all_seq (pklog_all .i) (all_branch handleReq_all ?_ ?_)) trivial
  · exact pkTcpSendn_all.bind fun _ => checked_all.bind fun _ => all_seq (pklog_all .w) trivial
  · exact all_seq (pklog_all .e) (pkTcpSendn_all.bind fun _ => pkTcpSendn_all.bind fun _ => checked_all.bind fun _ =>
      all_branch all_succeeds (all_branch eraseUpdPart_all trivial (checked_all.bind fun _ => fatalErr_all)) trivial)

theorem pkMqttDelete_all : pkMqttDelete.All LibAct :=
  checked_all.bind fun _ => all_branch checked_all ⟨Task.noConfusion, trivial⟩ trivial

theorem mqttEventData_all : mqttEventData.All LibAct :=
  all_seq (pklog_all .v) (all_branch checked_all (all_branch (all_branch checked_all all_succeeds trivial)
    (all_branch all_succeeds (all_branch checked_all (checked_all.bind fun _ => trivial) trivial) trivial) (pklog_all .w))
    trivial)

theorem mqttEventHandler_all : mqttEventHandler.All LibAct := by
  refine all_outcome fun n => ?_
  split
  all_goals first | exact mqttEventData_all | exact pklog_all _

theorem scanAddress_all : scanAddress.All QuietLibAct := by
  refine all_outcome fun n => ?_
  split
  · exact ⟨⟨rfl, Level.noConfusion⟩, trivial⟩
  · trivial
  · exact ⟨⟨rfl, Level.noConfusion⟩, trivial⟩

theorem pkI2cBegin_all : pkI2cBegin.All QuietLibAct := all_seq all_assert all_assert

theorem pkI2cBegin_ends : pkI2cBegin.Ends () := Ends.bind assert_ends assert_ends

theorem pkI2cScan_ends : pkI2cScan.Ends () := by
  have hlog : (pklog .i).Ends () := rfl
  have haddress : scanAddress.Ends () := ⟨0, rfl⟩
  have hscan : (times I2c.scanAddresses.length scanAddress).Ends () := haddress.times _
  have hline : pkI2cScanCurrentLine.Ends () :=
    Ends.bind assert_ends (Ends.bind hlog (Ends.bind hscan (Ends.bind hlog assert_ends)))
  exact Ends.bind assert_ends (Ends.bind hline assert_ends)

theorem pkI2cScan_all : pkI2cScan.All QuietLibAct := by
  have hlog : (pklog .i).All QuietLibAct := ⟨⟨rfl, Level.noConfusion⟩, trivial⟩
  have hline : pkI2cScanCurrentLine.All QuietLibAct :=
    all_seq all_assert (all_seq hlog (all_seq (scanAddress_all.times _) (all_seq hlog all_assert)))
  exact all_seq all_assert (all_seq hline all_assert)

end Vedruino.Boot
