import Vedruino.Ip.Cuts
import Vedruino.Lib.CLiteral
import Vedruino.Netlog.Replies
import Vedruino.Netlog.Session

/-!
# The identity of a board

The client learns the MAC address and the session id of a board from a positive reply, and compares the two with those of each boot message. A reply arrives in any pieces; a negative one ends with the stream.
-/

namespace Vedruino.Netlog

open Ip CLiteral

/-- What `handle_ctl_resp` raises; the last three come from `recv`, `decode` and `struct.unpack`. -/
inductive CtlRespError
  | noStatus
  | responded (msg : List Char)
  | unknownStatus (status : UInt8)
  | tooSmall (boardInfoBs : List UInt8)
  | osError
  | unicodeDecodeError
  | structError
  deriving DecidableEq, Repr

/-- A byte in the `repr` of bytes between these quotes. -/
def reprByte (quote : Char) (b : UInt8) : List Char :=
  let c := Char.ofNat b.toNat
  if c = quote ∨ c = '\\' then ['\\', c]
  else if c = '\t' then ['\\', 't']
  else if c = '\n' then ['\\', 'n']
  else if c = '\r' then ['\\', 'r']
  else if b < 0x20 ∨ 0x7f ≤ b then '\\' :: 'x' :: (Nat.toDigits 16 b.toNat).leftpad 2 '0'
  else [c]

/-- `repr` of bytes: between double quotes where they contain single ones only. -/
def reprBytes (bs : List UInt8) : List Char :=
  let quote := if 0x27 ∈ bs ∧ 0x22 ∉ bs then '"' else Char.ofNat 0x27
  'b' :: quote :: bs.flatMap (reprByte quote) ++ [quote]

/-- The text of an exception that `handle_ctl_resp` raises itself. -/
def CtlRespError.text? : CtlRespError → Option (List Char)
  | .noStatus => "cannot get status from server's response".toList
  | .responded msg => "server responded: error `".toList ++ msg ++ "`".toList
  | .unknownStatus status => "server responded with unknown status `".toList ++ decimal status.toNat ++ "`".toList
  | .tooSmall bs => "server's response is too small: `".toList ++ reprBytes bs ++ "`".toList
  | .osError | .unicodeDecodeError | .structError => none

/-- `bytes.decode`. -/
def decode (bs : List UInt8) : Option (List Char) := bs.toByteArray.utf8Decode?.map Array.toList

/-- The loop for an error message. -/
def recvMsg : Nat → List UInt8 → Conn → Except CtlRespError (List UInt8)
  | 0, msg, _ => .ok msg
  | fuel + 1, msg, c =>
    match pkTcpRecv c recvMaxSize with
    | (none, _) => .error .osError
    | (some bs, c') => if bs.length = 0 then .ok msg else recvMsg fuel (msg ++ bs) c'

/-- The loop for a board info. -/
def recvInfo : Nat → List UInt8 → Conn → Except CtlRespError (List UInt8)
  | 0, bs, _ => if bs.length < BoardInfo.size then .error (.tooSmall bs) else .ok bs
  | fuel + 1, bs, c =>
    if bs.length < BoardInfo.size then
      match pkTcpRecv c recvMaxSize with
      | (none, _) => .error .osError
      | (some xs, c') => if xs.length = 0 then .error (.tooSmall bs) else recvInfo fuel (bs ++ xs) c'
    else .ok bs

/-- What a message of the server is raised as. -/
def errorOf (msg : List UInt8) : CtlRespError :=
  match decode msg with
  | none => .unicodeDecodeError
  | some text => .responded text

/-- `handle_ctl_resp` with its exceptions. Every `recv` of its loops but the last takes at least one byte. -/
def handleCtlRespExcept (c : Conn) : Except CtlRespError BoardInfo :=
  match pkTcpRecv c 1 with
  | (none, _) => .error .osError
  | (some [status], c') =>
    if status = UInt8.ofNat '-'.toNat then (recvMsg (c'.data.length + 1) [] c').bind fun msg => .error (errorOf msg)
    else if status ≠ UInt8.ofNat '+'.toNat then .error (.unknownStatus status)
    else (recvInfo BoardInfo.size [] c').bind fun bs => (BoardInfo.fromBytes bs).elim (.error .structError) .ok
  | (some _, _) => .error .noStatus

/-- The pieces in which TCP delivers these bytes. -/
structure Delivery (bs : List UInt8) where
  segments : List (List UInt8)
  nonempty : [] ∉ segments
  flatten : segments.flatten = bs

/-- The stream ends after the last piece. -/
def Delivery.conn {bs : List UInt8} (d : Delivery bs) : Conn := d.segments.map some

private theorem toOption_recvInfo (fuel : Nat) (bs : List UInt8) (c : Conn) : (recvInfo fuel bs c).toOption = recvBoardInfo fuel bs c := by
  induction fuel generalizing bs c with
  | zero =>
    rw [recvInfo, recvBoardInfo]
    split
    · rfl
    · rfl
  | succ fuel ih =>
    rw [recvInfo, recvBoardInfo]
    split
    · cases hrecv : pkTcpRecv c recvMaxSize with
      | mk r c' =>
        cases r with
        | none => rfl
        | some xs =>
          dsimp only
          split
          · rfl
          · exact ih _ _
    · rfl

/-- The client ends where the function raises an exception. -/
theorem toOption_handleCtlRespExcept (c : Conn) : (handleCtlRespExcept c).toOption = handleCtlResp c := by
  rw [handleCtlRespExcept, handleCtlResp]
  rcases pkTcpRecv c 1 with ⟨_ | _ | ⟨status, _ | ⟨_, _⟩⟩, c'⟩
  · rfl
  · rfl
  · dsimp only
    by_cases hplus : status = UInt8.ofNat '+'.toNat
    · rw [if_pos hplus, if_neg (by rw [hplus]; decide), if_neg (not_not.2 hplus), ← toOption_recvInfo]
      cases recvInfo BoardInfo.size [] c' with
      | error e => rfl
      | ok bs =>
        show ((BoardInfo.fromBytes bs).elim (.error .structError) .ok : Except CtlRespError BoardInfo).toOption =
          BoardInfo.fromBytes bs
        cases BoardInfo.fromBytes bs with
        | none => rfl
        | some b => rfl
    · rw [if_neg hplus, if_pos hplus]
      split
      · cases recvMsg (c'.data.length + 1) [] c' with
        | error e => rfl
        | ok msg => rfl
      · rfl
  · rfl

/-! ### The bytes of a delivery -/

theorem Delivery.data_conn {bs : List UInt8} (d : Delivery bs) : d.conn.data = bs := by
  obtain ⟨segments, hnonempty, rfl⟩ := d
  show Conn.data (segments.map some) = _
  induction segments with
  | nil => rfl
  | cons seg segments ih =>
    rw [List.mem_cons, not_or] at hnonempty
    rw [List.map_cons, Conn.data, if_neg (Ne.symm hnonempty.1), List.flatten_cons, ih hnonempty.2]

theorem Delivery.not_broken {bs : List UInt8} (d : Delivery bs) : d.conn.broken = false := by
  show Conn.broken (d.segments.map some) = false
  generalize d.segments = segments
  induction segments with
  | nil => rfl
  | cons seg segments ih =>
    rw [List.map_cons, Conn.broken]
    split
    · rfl
    · exact ih

variable {c : Conn}

/-- A read gets some of the data where there are any. -/
theorem exists_pkTcpRecv {n : Nat} (hn : 0 < n) (h : c.data ≠ []) :
    ∃ bs c', pkTcpRecv c n = (some bs, c') ∧ bs ≠ [] ∧ c.data = bs ++ c'.data ∧ c'.broken = c.broken := by
  cases hrecv : pkTcpRecv c n with
  | mk r c' =>
    cases r with
    | none => exact absurd (data_of_pkTcpRecv_none hrecv) h
    | some bs =>
      have hdata := data_of_pkTcpRecv_some hn hrecv
      by_cases hbs : bs = []
      · rw [if_pos hbs] at hdata
        exact absurd hdata h
      · rw [if_neg hbs] at hdata
        exact ⟨bs, c', rfl, hbs, hdata, (broken_of_pkTcpRecv hbs hrecv).symm⟩

theorem pkTcpRecv_one {b : UInt8} {bs : List UInt8} (h : c.data = b :: bs) :
    ∃ c', pkTcpRecv c 1 = (some [b], c') ∧ c'.data = bs ∧ c'.broken = c.broken := by
  obtain ⟨xs, c', hrecv, hxs, hdata, hbroken⟩ := exists_pkTcpRecv Nat.one_pos (h ▸ List.cons_ne_nil b bs)
  have hlen := length_of_pkTcpRecv hrecv
  obtain ⟨x, rfl⟩ := List.length_eq_one_iff.1 (Nat.le_antisymm hlen (List.length_pos_iff.2 hxs))
  obtain ⟨rfl, rfl⟩ := List.cons.inj (h.symm.trans hdata)
  exact ⟨c', hrecv, rfl, hbroken⟩

/-- The loop gets the whole message where the stream ends without an error. -/
theorem recvMsg_eq {fuel : Nat} {msg : List UInt8} (hfuel : c.data.length < fuel) :
    recvMsg fuel msg c = if c.broken then .error .osError else .ok (msg ++ c.data) := by
  induction fuel generalizing msg c with
  | zero => exact absurd hfuel (Nat.not_lt_zero _)
  | succ fuel ih =>
    rw [recvMsg]
    cases hrecv : pkTcpRecv c recvMaxSize with
    | mk r c' =>
      cases r with
      | none => rw [broken_of_pkTcpRecv_none hrecv, if_pos rfl]
      | some xs =>
        have hdata := data_of_pkTcpRecv_some (by decide) hrecv
        dsimp only
        by_cases hxs : xs = []
        · subst hxs
          rw [if_pos rfl] at hdata
          rw [not_broken_of_pkTcpRecv_nil (by decide) hrecv, hdata, if_neg Bool.false_ne_true, List.append_nil]
          rfl
        · have hpos := List.length_pos_iff.2 hxs
          rw [if_neg hxs] at hdata
          rw [hdata, List.length_append] at hfuel
          rw [if_neg hpos.ne', ih (by omega), broken_of_pkTcpRecv hxs hrecv, hdata, List.append_assoc]

theorem recvInfo_eq {fuel : Nat} {bs : List UInt8} (hfuel : c.data.length ≤ fuel)
    (hsize : bs.length + c.data.length = BoardInfo.size) : recvInfo fuel bs c = .ok (bs ++ c.data) := by
  induction fuel generalizing bs c with
  | zero =>
    have hnil := List.length_eq_zero_iff.1 (Nat.le_zero.1 hfuel)
    rw [hnil, List.length_nil] at hsize
    rw [recvInfo, if_neg (by omega), hnil, List.append_nil]
  | succ fuel ih =>
    rw [recvInfo]
    by_cases hnil : c.data = []
    · rw [hnil, List.length_nil] at hsize
      rw [if_neg (by omega), hnil, List.append_nil]
    · obtain ⟨xs, c', hrecv, hxs, hdata, -⟩ := exists_pkTcpRecv (n := recvMaxSize) (by decide) hnil
      have hpos := List.length_pos_iff.2 hxs
      rw [hdata, List.length_append] at hfuel hsize
      rw [if_pos (by omega), hrecv]
      dsimp only
      rw [if_neg hpos.ne', ih (by omega) (by rw [List.length_append]; omega), hdata, List.append_assoc]

private theorem decode_utf8 (text : List Char) : decode (utf8 text) = some text := by
  show text.utf8Encode.utf8Decode?.map Array.toList = some text
  rw [List.utf8Decode?_utf8Encode]
  rfl

private theorem handleCtlRespExcept_info {b : BoardInfo} (h : c.data = ascii ['+'] ++ b.bytes) : handleCtlRespExcept c = .ok b := by
  have hcons : c.data = UInt8.ofNat '+'.toNat :: b.bytes := h
  obtain ⟨c', hrecv, hdata, -⟩ := pkTcpRecv_one hcons
  have hlen : c'.data.length = BoardInfo.size := by rw [hdata, BoardInfo.length_bytes]
  rw [handleCtlRespExcept, hrecv]
  dsimp only
  rw [if_neg (by decide), if_neg (not_not.2 rfl), recvInfo_eq hlen.le (by rw [hlen]; exact Nat.zero_add _), hdata]
  show (BoardInfo.fromBytes b.bytes).elim (.error CtlRespError.structError) .ok = Except.ok b
  rw [BoardInfo.fromBytes_bytes]
  rfl

private theorem handleCtlRespExcept_msg {msg : List UInt8} (h : c.data = ascii ['-'] ++ msg) (hc : c.broken = false) :
    handleCtlRespExcept c = .error (errorOf msg) := by
  have hcons : c.data = UInt8.ofNat '-'.toNat :: msg := h
  obtain ⟨c', hrecv, hdata, hbroken⟩ := pkTcpRecv_one hcons
  rw [handleCtlRespExcept, hrecv]
  dsimp only
  rw [if_pos rfl, recvMsg_eq (Nat.lt_succ_self _), hbroken, hc, if_neg Bool.false_ne_true, hdata]
  rfl

private theorem errorOf_utf8 (text : List Char) : errorOf (utf8 text) = .responded text := by
  rw [errorOf, decode_utf8]

private theorem ctlResp_of_error {b : BoardInfo} {r : Resp} (h : r.status ≠ '+') : ctlResp b r = ascii ['-'] ++ utf8 r.errMsg := by
  cases r with
  | ok | okIgnored => exact absurd rfl h
  | errInternal | errMalformedReq | errClientsLimit | errTcpConnect => rfl

/-! ### The boot messages -/

theorem World.bcast_bootPack (b : BoardInfo) : bcast (bootPack b) = some b := by
  have hlen : (bootPack b).length = magic.length + BoardInfo.size := by
    rw [bootPack, List.length_append, BoardInfo.length_bytes]
  rw [bcast, ← hlen, List.take_length, readBcast_bootPack]

theorem World.handleBcast_bootPack (p : Setup) {w : World} {b : BoardInfo} (h : w.boardInfo = some b) (b' : BoardInfo) :
    w.handleBcast p (bootPack b') =
      if b'.macAddr = b.macAddr ∧ b'.sessionId ≠ b.sessionId then w.discard p b' else w := by
  rw [handleBcast, h, bcast_bootPack]
  exact if_congr BoardInfo.bcastFilter_iff rfl rfl

/-- **A positive reply is read as the board info that it was made of and a negative one as an error with its text, in whatever pieces it arrives. After a positive one the client turns to the server again at a boot message of the same board with another session, and at no other.** -/
theorem identity_agrees (b : BoardInfo) :
    (∀ hd (d : Delivery ((okIgnored b hd).flatMap CtlOp.sent)), handleCtlRespExcept d.conn = .ok b ∧
      ∀ (p : Setup) (w : World) (b' : BoardInfo),
        let w' := { w with boardInfo := handleCtlResp d.conn }
        w'.handleBcast p (bootPack b') =
          if b'.macAddr = b.macAddr ∧ b'.sessionId ≠ b.sessionId then w'.discard p b' else w') ∧
      (∀ text (d : Delivery (ascii ['-'] ++ utf8 text)), ∃ e, handleCtlRespExcept d.conn = .error e ∧
        e.text? = some ("server responded: error `".toList ++ text ++ "`".toList)) ∧
      (∀ r (d : Delivery (ctlResp b r)),
        handleCtlRespExcept d.conn = if r.status = '+' then .ok b else .error (.responded r.errMsg)) ∧
      ∀ b', World.bcast (bootPack b') = some b' ∧
        (BoardInfo.bcastFilter b b' = true ↔ b'.macAddr = b.macAddr ∧ b'.sessionId ≠ b.sessionId) := by
  refine ⟨fun hd d => ?_, fun text d => ?_, fun r d => ?_, fun b' => ⟨World.bcast_bootPack b', BoardInfo.bcastFilter_iff⟩⟩
  · have hinfo : handleCtlRespExcept d.conn = .ok b := by
      apply handleCtlRespExcept_info
      rw [d.data_conn]
      simp [okIgnored, CtlOp.sent, BoardInfo.bytes]
    refine ⟨hinfo, fun p w b' => World.handleBcast_bootPack p ?_ b'⟩
    rw [← toOption_handleCtlRespExcept, hinfo]
    rfl
  · refine ⟨_, handleCtlRespExcept_msg d.data_conn d.not_broken, ?_⟩
    rw [errorOf_utf8]
    rfl
  · split
    · next hplus =>
      apply handleCtlRespExcept_info
      rw [d.data_conn, ctlResp, hplus, if_pos rfl]
    · next hminus => rw [handleCtlRespExcept_msg (d.data_conn.trans (ctlResp_of_error hminus)) d.not_broken, errorOf_utf8]

end Vedruino.Netlog
