import Mathlib.Data.Vector.Basic
import Vedruino.Netlog.Control

/-!
# What the server says about itself

A server answers a request with the MAC address of its board and the session id that it drew at its start, and it broadcasts the same in its boot messages. The client keeps the last board info and compares a boot message with it.
-/

namespace Vedruino.Netlog

open Ip

def macAddrSize : Nat := 6

def sessionIdSize : Nat := 32

abbrev MacAddr := List.Vector UInt8 macAddrSize

abbrev SessionId := List.Vector UInt8 sessionIdSize

/-- `BoardInfo`; the vectors carry the assertions on the lengths. -/
structure BoardInfo where
  macAddr : MacAddr
  sessionId : SessionId
  deriving DecidableEq

namespace BoardInfo

def size : Nat := macAddrSize + sessionIdSize

def bytes (b : BoardInfo) : List UInt8 := b.macAddr.toList ++ b.sessionId.toList

/-- `BoardInfo.from_bytes`: `struct.unpack` wants exactly so many bytes. -/
def fromBytes (bs : List UInt8) : Option BoardInfo :=
  if h : bs.length = size then
    some ⟨⟨bs.take macAddrSize, by rw [List.length_take, h]; rfl⟩, ⟨bs.drop macAddrSize, by rw [List.length_drop, h]; rfl⟩⟩
  else none

def bcastFilter (cur bcast : BoardInfo) : Bool :=
  if cur.macAddr ≠ bcast.macAddr then false else cur.sessionId ≠ bcast.sessionId

variable {b c : BoardInfo}

theorem length_bytes : b.bytes.length = size := by
  rw [bytes, List.length_append, List.Vector.toList_length, List.Vector.toList_length]
  rfl

theorem fromBytes_bytes : fromBytes b.bytes = some b := by
  obtain ⟨⟨mac, hmac⟩, ⟨sid, hsid⟩⟩ := b
  rw [fromBytes, dif_pos length_bytes]
  simp only [bytes, List.Vector.toList, List.take_left' hmac, List.drop_left' hmac]

private theorem length_of_fromBytes {bs : List UInt8} (h : fromBytes bs = some b) : bs.length = size := by
  rw [fromBytes] at h
  split at h
  · assumption
  · cases h

theorem bcastFilter_iff : bcastFilter b c = true ↔ c.macAddr = b.macAddr ∧ c.sessionId ≠ b.sessionId := by
  rw [bcastFilter]
  by_cases h : b.macAddr = c.macAddr
  · rw [if_neg (not_not.2 h), decide_eq_true_iff]
    exact ⟨fun hne => ⟨h.symm, hne.symm⟩, fun hne => hne.2.symm⟩
  · rw [if_pos h]
    exact ⟨fun hfalse => Bool.noConfusion hfalse, fun hc => absurd hc.1.symm h⟩

end BoardInfo

/-- The packet of `bcast_boot_notify`. -/
def bootPack (b : BoardInfo) : List UInt8 := magic ++ b.bytes

/-- What `handle_bcast` reads of a packet; `none` is an extraneous boot message. -/
def readBcast (bs : List UInt8) : Option BoardInfo :=
  if bs.length < magic.length ∨ bs.take magic.length ≠ magic then none else BoardInfo.fromBytes (bs.drop magic.length)

theorem readBcast_bootPack (b : BoardInfo) : readBcast (bootPack b) = some b := by
  have hlen : ¬ (bootPack b).length < magic.length := by
    rw [bootPack, List.length_append]
    omega
  rw [readBcast, bootPack, List.take_left, List.drop_left, BoardInfo.fromBytes_bytes, if_neg]
  intro h
  rcases h with h | h
  · exact hlen h
  · exact h rfl

/-! ### Responses -/

def Resp.errMsg : Resp → List Char
  | .ok | .okIgnored => []
  | .errInternal => "internal error".toList
  | .errMalformedReq => "malformed request".toList
  | .errClientsLimit => "clients limit".toList
  | .errTcpConnect => "tcp connect error".toList

/-- What `ctl_server_task` sends for a response: the status, and then the board info or the message. -/
def ctlResp (b : BoardInfo) (r : Resp) : List UInt8 :=
  ascii [r.status] ++ if r.status = '+' then b.bytes else ascii r.errMsg

def recvMaxSize : Nat := 1024

/-- The loop of `handle_ctl_resp` that receives the board info. Every `recv` that it goes on after returns at least one byte. -/
def recvBoardInfo : Nat → List UInt8 → Conn → Option (List UInt8)
  | 0, bs, _ => if bs.length < BoardInfo.size then none else some bs
  | fuel + 1, bs, c =>
    if bs.length < BoardInfo.size then
      match pkTcpRecv c recvMaxSize with
      | (none, _) => none
      | (some xs, c') => if xs.length = 0 then none else recvBoardInfo fuel (bs ++ xs) c'
    else some bs

/-- `handle_ctl_resp`; `none` is an exception, which ends the client. -/
def handleCtlResp (c : Conn) : Option BoardInfo :=
  match pkTcpRecv c 1 with
  | (some [status], c') =>
    if status = UInt8.ofNat '+'.toNat then (recvBoardInfo BoardInfo.size [] c').bind BoardInfo.fromBytes else none
  | _ => none

private theorem recvBoardInfo_begins {fuel : Nat} {bs xs : List UInt8} {c : Conn} (h : recvBoardInfo fuel bs c = some xs) :
    xs <+: bs ++ c.data := by
  induction fuel generalizing bs c with
  | zero =>
    rw [recvBoardInfo, Option.ite_none_left_eq_some] at h
    obtain ⟨-, h⟩ := h
    cases h
    exact List.prefix_append _ _
  | succ fuel ih =>
    rw [recvBoardInfo] at h
    split at h
    · split at h
      · cases h
      · next ys c' hrecv =>
        rw [Option.ite_none_left_eq_some] at h
        obtain ⟨hys, h⟩ := h
        rw [data_of_pkTcpRecv_some (by decide) hrecv, if_neg (fun hnil => hys (by rw [hnil]; rfl)), ← List.append_assoc]
        exact ih h
    · cases h
      exact List.prefix_append _ _

/-- The client takes no board info but that of a positive response that it has received in full. -/
theorem handleCtlResp_eq_some {b b' : BoardInfo} {r : Resp} {c : Conn} (hc : c.data <+: ctlResp b r)
    (h : handleCtlResp c = some b') : r.status = '+' ∧ b' = b := by
  rw [handleCtlResp] at h
  split at h
  · next status c' hrecv =>
    rw [Option.ite_none_right_eq_some] at h
    obtain ⟨hstatus, h⟩ := h
    rw [Option.bind_eq_some_iff] at h
    obtain ⟨xs, hxs, hinfo⟩ := h
    rw [data_of_pkTcpRecv_some (by decide) hrecv, if_neg (by simp), ctlResp] at hc
    have hcons : [status] ++ c'.data <+:
        UInt8.ofNat r.status.toNat :: if r.status = '+' then b.bytes else ascii r.errMsg := hc
    rw [List.singleton_append, List.cons_prefix_cons] at hcons
    obtain ⟨rfl, hdata⟩ := hcons
    have hplus : r.status = '+' := by
      cases r
      all_goals first | rfl | exact absurd hstatus (by decide)
    rw [if_pos hplus] at hdata
    have hxs' : xs <+: b.bytes := (recvBoardInfo_begins hxs).trans hdata
    have heq := hxs'.eq_of_length ((BoardInfo.length_of_fromBytes hinfo).trans BoardInfo.length_bytes.symm)
    rw [heq, BoardInfo.fromBytes_bytes] at hinfo
    exact ⟨hplus, (Option.some.inj hinfo).symm⟩
  · cases h

end Vedruino.Netlog
