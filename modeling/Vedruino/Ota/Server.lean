import Vedruino.Ip.Tcp
import Vedruino.Lib.Flash
import Vedruino.Lib.Runs

/-!
# The OTA server

`server_task` accepts one request at a time. `handle_req` receives the header and then writes the firmware to the update partition as it arrives. When a request fails, the server erases the part of the partition that `part_bytes_written` says may have been written.
-/

namespace Vedruino.Ota

open Ip

def firmwareBufSize : Nat := 4096

def firmwareBlkSize : Nat := 4096

def lowPriority : Nat := 1

def highPriority : Nat := 23

def magic : List UInt8 := ascii ['2', '7', '2', '0', 'O', 'T', 'A', 'U', 'P', 'D', 'A', 'T', 'E']

def md5Size : Nat := 16

/-- `pkOtaResp_t`. -/
inductive Resp
  | ok | internalErr | malformedReq | firmwareUnexpectedEnd | firmwareTooBig | espVerifyErr | md5VerifyErr
  deriving DecidableEq, Repr

/-- The static `header`; `size` is the memory of the field, lowest byte first. -/
structure Header where
  magic : List UInt8
  md5 : List UInt8
  size : List UInt8
  deriving DecidableEq, Repr

/-- The value of bytes in memory. -/
def leNat : List UInt8 → Nat
  | [] => 0
  | b :: bs => b.toNat + 256 * leNat bs

/-- `esp_ota_set_boot_partition`. -/
inductive SetBoot
  | ok | validateFailed | err
  deriving DecidableEq, Repr

inductive BootSel
  | running | update
  deriving DecidableEq, Repr

abbrev UpdPart (size : Nat) := Partition size firmwareBlkSize

/-- What a request meets: its bytes, the partition, and how `malloc` and `esp_ota_set_boot_partition` end. The writes of a request all have different offsets. -/
structure ReqEnv (size : Nat) where
  conn : Conn
  malloc : Bool
  part : UpdPart size
  setBoot : SetBoot

/-- The memory that outlives a request, the partition, the boot selection and the priority of the task. -/
structure Dev where
  header : Header
  image : Image
  partBytesWritten : Nat
  boot : BootSel
  priority : Nat

structure Write where
  off : Nat
  data : List UInt8
  ok : Bool

/-- What the receive loop of `handle_req` works on, and the writes it has made. -/
structure Recv where
  image : Image
  partBytesWritten : Nat
  conn : Conn
  writes : List Write

/-- The bytes received so far, which are those that `mbedtls_md5_update` gets. -/
def Recv.data (s : Recv) : List UInt8 := s.writes.flatMap Write.data

/-- The receive loop; the result is `none` where it ends without error. Every round receives a byte at least. -/
def recvLoop {size : Nat} (part : UpdPart size) (headerSize : Nat) : Nat → Recv → Option Resp × Recv
  | 0, s => (none, s)
  | fuel + 1, s =>
    if s.partBytesWritten < headerSize then
      match pkTcpRecv s.conn firmwareBufSize with
      | (none, c) => (some .internalErr, { s with conn := c })
      | (some bs, c) =>
        if bs.length = 0 then (some .firmwareUnexpectedEnd, { s with conn := c })
        else
          let w := part.write s.image s.partBytesWritten bs
          let s' := ⟨w.1, s.partBytesWritten + bs.length, c, s.writes ++ [⟨s.partBytesWritten, bs, w.2⟩]⟩
          if w.2 then recvLoop part headerSize fuel s' else (some .internalErr, s')
    else (none, s)

/-- The part of `handle_req` that receives the header: the error if there is one, the header and the rest of the connection. -/
def recvHeader (size : Nat) (h : Header) (c : Conn) : Option Resp × Header × Conn :=
  let m := pkTcpRecvn c h.magic magic.length
  let h := { h with magic := m.2.1 }
  if ¬ m.1 ∨ h.magic ≠ magic then (some .malformedReq, h, m.2.2)
  else
    let s := pkTcpRecvn m.2.2 h.size 4
    if ¬ s.1 then (some .malformedReq, { h with size := s.2.1 }, s.2.2)
    else
      -- `htonl`
      let h := { h with size := s.2.1.reverse }
      if leNat h.size > size then (some .firmwareTooBig, h, s.2.2)
      else
        let d := pkTcpRecvn s.2.2 h.md5 md5Size
        (if d.1 then none else some .malformedReq, { h with md5 := d.2.1 }, d.2.2)

/-- The end of a request: the response, the device, the writes, and whether `esp_ota_set_boot_partition` was called. -/
structure Outcome where
  resp : Resp
  dev : Dev
  writes : List Write
  setBootCalled : Bool

/-- `handle_req`. `verifyMd5` is the value of `CONF_OTA_VERIFY_MD5`, `md5` the digest of the bytes given to `mbedtls_md5_update`. -/
def handleReq {size : Nat} (verifyMd5 : Bool) (md5 : List UInt8 → List UInt8) (env : ReqEnv size) (d : Dev) : Outcome :=
  let r := recvHeader size d.header env.conn
  let d := { d with header := r.2.1 }
  match r.1 with
  | some resp => ⟨resp, d, [], false⟩
  | none =>
    if ¬ env.malloc then ⟨.internalErr, d, [], false⟩
    else
      let headerSize := leNat d.header.size
      let l := recvLoop env.part headerSize headerSize ⟨d.image, 0, r.2.2, []⟩
      let d := { d with image := l.2.image, partBytesWritten := l.2.partBytesWritten }
      match l.1 with
      | some resp => ⟨resp, d, l.2.writes, false⟩
      | none =>
        if verifyMd5 ∧ md5 l.2.data ≠ d.header.md5 then ⟨.md5VerifyErr, d, l.2.writes, false⟩
        else
          match env.setBoot with
          | .ok => ⟨.ok, { d with boot := .update }, l.2.writes, true⟩
          | .validateFailed => ⟨.espVerifyErr, d, l.2.writes, true⟩
          | .err => ⟨.internalErr, d, l.2.writes, true⟩

inductive PartStatus
  | clean | needErase | err
  deriving DecidableEq, Repr

def checkLoop {size : Nat} (part : UpdPart size) (m : Image) : Nat → Nat → PartStatus
  | 0, _ => .clean
  | fuel + 1, offs =>
    if offs < size then
      match part.read m offs firmwareBlkSize with
      | none => .err
      | some buf => if buf.all (· == 0xff) then checkLoop part m fuel (offs + firmwareBlkSize) else .needErase
    else .clean

def checkUpdPart {size : Nat} (part : UpdPart size) (malloc : Bool) (m : Image) : PartStatus :=
  if malloc then checkLoop part m size 0 else .err

/-- The bytes that `erase_upd_part` erases: whole blocks, at most the partition. -/
def eraseBytes (size bytes : Nat) : Nat :=
  let bytes := if bytes > size then size else bytes
  let blks := bytes / firmwareBlkSize
  (if bytes % firmwareBlkSize ≠ 0 then blks + 1 else blks) * firmwareBlkSize

def eraseUpdPart {size : Nat} (part : UpdPart size) (bytes : Nat) (m : Image) : Image × Bool :=
  part.erase m 0 (eraseBytes size bytes)

/-- Where `server_task` is: before its loop, at `pk_tcp_accept`, deleted, or restarting the board. -/
inductive Phase
  | start | accept | stopped | restarted
  deriving DecidableEq, Repr

structure Server where
  phase : Phase
  dev : Dev

inductive Input (size : Nat)
  /-- The task up to its loop: whether there is a partition, `malloc` works and the server socket is there. -/
  | start (found malloc listening : Bool) (part : UpdPart size)
  | acceptFailed
  | request (env : ReqEnv size)

/-- `server_task` before its loop. -/
def Server.begin {size : Nat} (found malloc listening : Bool) (part : UpdPart size) (d : Dev) : Server :=
  if ¬ found ∨ size % firmwareBlkSize ≠ 0 then ⟨.stopped, d⟩
  else
    match checkUpdPart part malloc d.image with
    | .err => ⟨.stopped, d⟩
    | .clean => ⟨if listening then .accept else .stopped, d⟩
    | .needErase =>
      let e := eraseUpdPart part size d.image
      ⟨if e.2 ∧ listening then .accept else .stopped, { d with image := e.1 }⟩

/-- One round of the loop of `server_task` with a request. -/
def Server.serve {size : Nat} (verifyMd5 : Bool) (md5 : List UInt8 → List UInt8) (env : ReqEnv size) (d : Dev) :
    Server × Resp :=
  let o := handleReq verifyMd5 md5 env { d with priority := highPriority }
  if o.resp = .ok then (⟨.restarted, o.dev⟩, .ok)
  else if o.dev.partBytesWritten ≠ 0 then
    let e := eraseUpdPart env.part o.dev.partBytesWritten o.dev.image
    if e.2 then (⟨.accept, { o.dev with image := e.1, partBytesWritten := 0, priority := lowPriority }⟩, o.resp)
    else (⟨.stopped, { o.dev with image := e.1 }⟩, o.resp)
  else (⟨.accept, { o.dev with priority := lowPriority }⟩, o.resp)

/-- A step of `server_task`, with the response where it serves a request. -/
def Server.step {size : Nat} (verifyMd5 : Bool) (md5 : List UInt8 → List UInt8) (s : Server) :
    Input size → Option (Server × Option Resp)
  | .start found malloc listening part =>
    if s.phase = .start then some (.begin found malloc listening part s.dev, none) else none
  | .acceptFailed => if s.phase = .accept then some (s, none) else none
  | .request env =>
    if s.phase = .accept then
      some ((Server.serve verifyMd5 md5 env s.dev).1, some (Server.serve verifyMd5 md5 env s.dev).2)
    else none

/-- The task is created with low priority and `part_bytes_written` is static; the partition holds anything. -/
structure Server.Init (boot : BootSel) (s : Server) : Prop where
  phase : s.phase = .start
  partBytesWritten : s.dev.partBytesWritten = 0
  boot : s.dev.boot = boot
  priority : s.dev.priority = lowPriority

/-- The server on a partition of `size` bytes; a label is the input of the step and the response. -/
def server (size : Nat) (verifyMd5 : Bool) (md5 : List UInt8 → List UInt8) (boot : BootSel) :
    System Server (Input size × Option Resp) where
  Init := Server.Init boot
  Step s l t := s.step verifyMd5 md5 l.1 = some (t, l.2)

theorem recvHeader_sent (total : Nat) {h : Header} (hmagic : h.magic.length = magic.length) (hsize : h.size.length = 4)
    (hmd5 : h.md5.length = md5Size) (size md5 : List UInt8) (hsize' : size.length = 4) (hmd5' : md5.length = md5Size)
    (hfit : leNat size.reverse ≤ total) (data : List UInt8) (c : Conn) :
    recvHeader total h (some (magic ++ (size ++ (md5 ++ data))) :: c) =
      (none, ⟨magic, md5, size.reverse⟩, if data = [] then c else some data :: c) := by
  have hne : size ≠ [] := List.ne_nil_of_length_pos (by omega)
  have hne' : md5 ≠ [] := List.ne_nil_of_length_pos (by rw [hmd5']; decide)
  have hfirst := pkTcpRecvn_append magic (by decide) hmagic (size ++ (md5 ++ data)) c
  have hsecond := pkTcpRecvn_append size hne (hsize.trans hsize'.symm) (md5 ++ data) c
  have hthird := pkTcpRecvn_append md5 hne' (hmd5.trans hmd5'.symm) data c
  rw [if_neg (by simp [hne])] at hfirst
  rw [hsize', if_neg (by simp [hne'])] at hsecond
  rw [hmd5'] at hthird
  simp only [recvHeader, hfirst, hsecond, hthird]
  simp [Nat.not_lt.2 hfit]

end Vedruino.Ota
