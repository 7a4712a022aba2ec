import Vedruino.Ota.Bound
import Vedruino.Ota.Fidelity
import Vedruino.Ota.Md5

/-!
# The update tool

`ota.py` sends the size and the MD5 of a firmware and then the firmware in blocks, and reports what the board has answered. The reads of the board find the bytes in any segments, and either direction of the connection may end before its last byte.
-/

namespace Vedruino.Ota

open Ip

/-! ### `ota.py` -/

def blkSize : Nat := 8192

/-- `struct.pack("!I", size)`; `none` is a `struct.error`. -/
def packSize (size : Nat) : Option (List UInt8) := if size < 2 ^ 32 then some (sizeBytes size) else none

/-- The blocks that the loop sends after `sent` bytes. -/
def blocks (firmware : List UInt8) : Nat → Nat → List (List UInt8)
  | 0, _ => []
  | fuel + 1, sent =>
    if sent < firmware.length then
      let blk := (firmware.take (min (sent + blkSize) firmware.length)).drop sent
      blk :: blocks firmware fuel (sent + blk.length)
    else []

/-- The arguments of `sock.sendall`, one call after another. -/
def sends (md5 : List UInt8 → List UInt8) (firmware : List UInt8) : Option (List (List UInt8)) :=
  (packSize firmware.length).map fun size => (magic ++ size ++ md5 firmware) :: blocks firmware firmware.length 0

/-- The loop over `sock.recv(1024)`; `none` is an exception. -/
def recvResp : Nat → List UInt8 → Conn → Option (List UInt8)
  | 0, resp, _ => some resp
  | fuel + 1, resp, c =>
    match pkTcpRecv c 1024 with
    | (none, _) => none
    | (some bs, c') => if bs.length = 0 then some resp else recvResp fuel (resp ++ bs) c'

/-- What the tool prints at its end, or how it fails: an assertion, or an exception of the socket. -/
inductive Report
  | ok
  | error (msg : List UInt8)
  | malformed
  | failed
  deriving DecidableEq, Repr

def Report.ofResp : List UInt8 → Report
  | [] => .malformed
  | c :: msg => if c = UInt8.ofNat '-'.toNat then .error msg else if c = UInt8.ofNat '+'.toNat then .ok else .malformed

def report (fuel : Nat) (c : Conn) : Report := (recvResp fuel [] c).elim .failed .ofResp

/-! ### The answer of the board -/

/-- `err_msg` in `server_task`. -/
def Resp.errMsg : Resp → List Char
  | .ok => []
  | .internalErr => "internal error".toList
  | .malformedReq => "malformed request".toList
  | .firmwareUnexpectedEnd => "unexpected end of firmware in request".toList
  | .firmwareTooBig => "firmware is too big".toList
  | .espVerifyErr => "esp verification error".toList
  | .md5VerifyErr => "md5 verification error".toList

/-- The bytes that `server_task` sends. -/
def Resp.bytes (r : Resp) : List UInt8 :=
  if r = .ok then [UInt8.ofNat '+'.toNat] else UInt8.ofNat '-'.toNat :: ascii r.errMsg

private theorem recvResp_data (fuel : Nat) (resp : List UInt8) (c : Conn) {all : List UInt8} (hfuel : c.data.length < fuel)
    (h : recvResp fuel resp c = some all) : all = resp ++ c.data := by
  induction fuel generalizing resp c with
  | zero => exact (Nat.not_lt_zero _ hfuel).elim
  | succ fuel ih =>
    rw [recvResp] at h
    rcases hrecv : pkTcpRecv c 1024 with ⟨_ | bs, c'⟩
    · rw [hrecv] at h
      cases h
    · rw [hrecv] at h
      have hdata := data_of_pkTcpRecv_some (by decide) hrecv
      dsimp only at h
      by_cases hbs : bs.length = 0
      · rw [if_pos hbs] at h
        rw [if_pos (List.eq_nil_of_length_eq_zero hbs)] at hdata
        cases h
        rw [hdata, List.append_nil]
      · rw [if_neg hbs] at h
        rw [if_neg (fun hnil => hbs (congrArg List.length hnil))] at hdata
        rw [hdata, List.length_append] at hfuel
        rw [ih (resp ++ bs) c' (by omega) h, hdata, List.append_assoc]

/-- What the tool prints of an answer, also of the beginning of one. -/
theorem report_spec {r : Resp} {c : Conn} {fuel : Nat} (hfuel : c.data.length < fuel) (hreply : c.data <+: r.bytes) :
    (report fuel c = .ok → r = .ok) ∧
      (∀ msg, report fuel c = .error msg → r ≠ .ok ∧ msg <+: ascii r.errMsg) ∧
      (report fuel c = .malformed → c.data = []) := by
  cases hresp : recvResp fuel [] c with
  | none =>
    have hreport : report fuel c = .failed := by rw [report, hresp]; rfl
    rw [hreport]
    exact ⟨nofun, nofun, nofun⟩
  | some all =>
    have hreport : report fuel c = .ofResp all := by rw [report, hresp]; rfl
    have hall := recvResp_data fuel [] c hfuel hresp
    rw [List.nil_append] at hall
    subst hall
    rw [hreport]
    by_cases hok : r = .ok
    · rw [Resp.bytes, if_pos hok] at hreply
      rcases List.prefix_cons_iff.1 hreply with hdata | ⟨msg, hdata, hmsg⟩
      · rw [hdata]
        exact ⟨fun _ => hok, nofun, fun _ => rfl⟩
      · rw [hdata]
        exact ⟨fun _ => hok, nofun, nofun⟩
    · rw [Resp.bytes, if_neg hok] at hreply
      rcases List.prefix_cons_iff.1 hreply with hdata | ⟨msg, hdata, hmsg⟩
      · rw [hdata]
        exact ⟨nofun, nofun, fun _ => rfl⟩
      · rw [hdata]
        refine ⟨nofun, ?_, nofun⟩
        intro msg' heq
        cases heq
        exact ⟨hok, hmsg⟩

/-! ### The stream of the tool -/

theorem flatten_blocks (firmware : List UInt8) (fuel sent : Nat) (hfuel : firmware.length ≤ sent + fuel) :
    (blocks firmware fuel sent).flatten = firmware.drop sent := by
  induction fuel generalizing sent with
  | zero =>
    rw [List.drop_eq_nil_of_le (by omega)]
    rfl
  | succ fuel ih =>
    rw [blocks]
    by_cases hlt : sent < firmware.length
    · have hlen : ((firmware.take (min (sent + blkSize) firmware.length)).drop sent).length =
          min (sent + blkSize) firmware.length - sent := by
        rw [List.length_drop, List.length_take, Nat.min_eq_left (Nat.min_le_right _ _)]
      have hpos : 0 < blkSize := by decide
      have hend : sent + (min (sent + blkSize) firmware.length - sent) = min (sent + blkSize) firmware.length := by omega
      have hrest : firmware.drop (min (sent + blkSize) firmware.length) =
          (firmware.drop sent).drop (min (sent + blkSize) firmware.length - sent) := by
        rw [List.drop_drop, hend]
      rw [if_pos hlt]
      dsimp only
      rw [List.flatten_cons, hlen, ih _ (by omega), hend, hrest, List.drop_take, List.take_append_drop]
    · rw [if_neg hlt, List.drop_eq_nil_of_le (by omega)]
      rfl

theorem request_eq (field firmware : List UInt8) :
    request field firmware = magic ++ (sizeBytes firmware.length ++ field) ++ firmware := by
  rw [request, List.append_assoc, List.append_assoc]

private theorem flatten_sends {md5 : List UInt8 → List UInt8} {firmware : List UInt8} {ss : List (List UInt8)}
    (h : sends md5 firmware = some ss) : firmware.length < 2 ^ 32 ∧ ss.flatten = request (md5 firmware) firmware := by
  rw [sends, packSize] at h
  split at h
  next hlen =>
    cases h
    refine ⟨hlen, ?_⟩
    rw [List.flatten_cons, flatten_blocks firmware _ 0 (by omega), List.drop_zero, request, List.append_assoc, List.append_assoc]
  next => cases h

/-! ### The header -/

theorem length_recvnLoop (fuel left : Nat) {buf : List UInt8} {c : Conn} (hleft : left ≤ buf.length) :
    (recvnLoop fuel left buf c).2.1.length = buf.length := by
  induction fuel generalizing left buf c with
  | zero => rfl
  | succ fuel ih =>
    rw [recvnLoop]
    split
    · rfl
    · rcases hrecv : pkTcpRecv c left with ⟨_ | bs, c'⟩
      · rfl
      · have hlen := length_of_pkTcpRecv hrecv
        have hover : (overwrite buf bs).length = buf.length := by
          rw [overwrite, List.length_append, List.length_drop]
          omega
        dsimp only
        split
        · rfl
        · exact (ih _ (by omega)).trans hover

private theorem recvHeader_sized (total : Nat) {h : Header} (hsized : h.Sized) (c : Conn) : (recvHeader total h c).2.1.Sized := by
  obtain ⟨hmagic, hmd5, hsize⟩ := hsized
  have hlen : magic.length = 13 := rfl
  rw [← hlen] at hmagic
  have hmagic' := (length_recvnLoop magic.length magic.length (c := c) (Nat.le_of_eq hmagic.symm)).trans hmagic
  rw [recvHeader]
  dsimp only
  rw [pkTcpRecvn]
  generalize recvnLoop magic.length magic.length h.magic c = m at hmagic' ⊢
  split
  · exact ⟨hmagic', hmd5, hsize⟩
  · have hsize' := (length_recvnLoop 4 4 (c := m.2.2) (Nat.le_of_eq hsize.symm)).trans hsize
    rw [pkTcpRecvn]
    generalize recvnLoop 4 4 h.size m.2.2 = s at hsize' ⊢
    split
    · exact ⟨hmagic', hmd5, hsize'⟩
    · have hrev : s.2.1.reverse.length = 4 := by rw [List.length_reverse, hsize']
      split
      · exact ⟨hmagic', hmd5, hrev⟩
      · exact ⟨hmagic', (length_recvnLoop md5Size md5Size (Nat.le_of_eq hmd5.symm)).trans hmd5, hrev⟩

section

variable {size : Nat} {verifyMd5 : Bool} {md5 : List UInt8 → List UInt8}

private theorem header_handleReq (env : ReqEnv size) (d : Dev) :
    (handleReq verifyMd5 md5 env d).dev.header = (recvHeader size d.header env.conn).2.1 := by
  rw [handleReq]
  dsimp only
  split
  · rfl
  · split
    · rfl
    · split
      · rfl
      · split
        · rfl
        · split
          · rfl
          · rfl
          · rfl

private theorem header_serve (env : ReqEnv size) (d : Dev) :
    (Server.serve verifyMd5 md5 env d).1.dev.header = (recvHeader size d.header env.conn).2.1 := by
  have hheader := @header_handleReq _ verifyMd5 md5 env { d with priority := highPriority }
  rw [Server.serve]
  dsimp only
  split
  · exact hheader
  · split
    · split
      · exact hheader
      · exact hheader
    · exact hheader

theorem Server.sized_step {s t : Server} {i : Input size} {resp : Option Resp} (h : s.dev.header.Sized)
    (hstep : s.step verifyMd5 md5 i = some (t, resp)) : t.dev.header.Sized := by
  cases i with
  | start found malloc listening part =>
    rw [Server.step, Option.ite_none_right_eq_some] at hstep
    obtain ⟨-, hstep⟩ := hstep
    cases hstep
    rw [Server.begin]
    split
    · exact h
    · split
      · exact h
      · exact h
      · exact h
  | acceptFailed =>
    rw [Server.step, Option.ite_none_right_eq_some] at hstep
    obtain ⟨-, hstep⟩ := hstep
    cases hstep
    exact h
  | request env =>
    rw [Server.step, Option.ite_none_right_eq_some] at hstep
    obtain ⟨-, hstep⟩ := hstep
    cases hstep
    rw [header_serve]
    exact recvHeader_sized size h env.conn

/-- The server with the static `header` of `ota.c`. -/
def otaServer (size : Nat) (verifyMd5 : Bool) (md5 : List UInt8 → List UInt8) (boot : BootSel) :
    System Server (Input size × Option Resp) where
  Init s := s.Init boot ∧ s.dev.header.Sized
  Step := (server size verifyMd5 md5 boot).Step

theorem reachable_otaServer {boot : BootSel} {s : Server} (h : (otaServer size verifyMd5 md5 boot).Reachable s) :
    (server size verifyMd5 md5 boot).Reachable s ∧ s.dev.header.Sized := by
  induction h with
  | init hinit => exact ⟨.init hinit.1, hinit.2⟩
  | step _ _ hstep ih => exact ⟨.step ih.1 trivial hstep, Server.sized_step ih.2 hstep⟩

end

/-! ### The firmware -/

section

variable {size : Nat}

/-- A loop that ends without error has received what has left the connection. -/
theorem data_recvLoop (part : UpdPart size) (headerSize fuel : Nat) {s : Recv} (hlen : s.data.length = s.partBytesWritten)
    (hend : (recvLoop part headerSize fuel s).1 = none) :
    (recvLoop part headerSize fuel s).2.data ++ (recvLoop part headerSize fuel s).2.conn.data = s.data ++ s.conn.data ∧
      (recvLoop part headerSize fuel s).2.data.length = (recvLoop part headerSize fuel s).2.partBytesWritten := by
  induction fuel generalizing s with
  | zero => exact ⟨rfl, hlen⟩
  | succ fuel ih =>
    rw [recvLoop] at hend ⊢
    by_cases hlt : s.partBytesWritten < headerSize
    · rw [if_pos hlt] at hend ⊢
      rcases hrecv : pkTcpRecv s.conn firmwareBufSize with ⟨_ | bs, c⟩
      · rw [hrecv] at hend
        cases hend
      · rw [hrecv] at hend
        have hdata := data_of_pkTcpRecv_some (by decide) hrecv
        dsimp only at hend ⊢
        by_cases hbs : bs.length = 0
        · rw [if_pos hbs] at hend
          cases hend
        · rw [if_neg hbs] at hend ⊢
          rw [if_neg fun hnil => hbs (congrArg List.length hnil)] at hdata
          split at hend
          next hok =>
            rw [if_pos hok]
            have hnext : (Recv.data ⟨(part.write s.image s.partBytesWritten bs).1, s.partBytesWritten + bs.length, c,
                s.writes ++ [⟨s.partBytesWritten, bs, (part.write s.image s.partBytesWritten bs).2⟩]⟩) = s.data ++ bs := by
              simp [Recv.data]
            obtain ⟨hall, hlen'⟩ := ih (by rw [hnext, List.length_append, hlen]) hend
            refine ⟨?_, hlen'⟩
            rw [hall, hnext, hdata, List.append_assoc]
          next => cases hend
    · rw [if_neg hlt]
      exact ⟨rfl, hlen⟩

/-- Where all the bytes arrive and no write fails the loop ends without error. -/
theorem recvLoop_delivered (part : UpdPart size) (headerSize fuel : Nat) {s : Recv}
    (hdata : headerSize ≤ s.partBytesWritten + s.conn.data.length)
    (hwrites : ∀ w ∈ (recvLoop part headerSize fuel s).2.writes, w.ok = true) : (recvLoop part headerSize fuel s).1 = none := by
  induction fuel generalizing s with
  | zero => rfl
  | succ fuel ih =>
    rw [recvLoop] at hwrites ⊢
    by_cases hlt : s.partBytesWritten < headerSize
    · rw [if_pos hlt] at hwrites ⊢
      have hne : s.conn.data ≠ [] := List.ne_nil_of_length_pos (by omega)
      rcases hrecv : pkTcpRecv s.conn firmwareBufSize with ⟨_ | bs, c⟩
      · exact absurd (data_of_pkTcpRecv_none hrecv) hne
      · have hsplit := data_of_pkTcpRecv_some (by decide) hrecv
        rw [hrecv] at hwrites
        dsimp only at hwrites ⊢
        by_cases hbs : bs = []
        · rw [if_pos hbs] at hsplit
          exact absurd hsplit hne
        · have hzero : ¬ bs.length = 0 := mt List.eq_nil_of_length_eq_zero hbs
          rw [if_neg hbs] at hsplit
          rw [hsplit, List.length_append] at hdata
          rw [if_neg hzero] at hwrites ⊢
          by_cases hok : (part.write s.image s.partBytesWritten bs).2 = true
          · rw [if_pos hok] at hwrites ⊢
            exact ih (by dsimp only; omega) hwrites
          · rw [if_neg hok] at hwrites
            exact absurd (hwrites _ (List.mem_append_right _ (List.mem_singleton_self _))) hok
    · rw [if_neg hlt]

end

/-! ### A session -/

section

variable {size : Nat}

/-- Each field of the header comes in one read, and the reads of the board find what the tool sends or its beginning. -/
structure Uploads (md5 : List UInt8 → List UInt8) (firmware : List UInt8) (conn : Conn) : Prop where
  sent : ∃ ss, sends md5 firmware = some ss ∧ conn.data <+: ss.flatten
  fields : conn.Fields [13, 4, 16]

/-- The connection ends before the header, as far as the board reads it. -/
def HeaderCut (size : Nat) (firmware : List UInt8) (conn : Conn) : Prop :=
  conn.data.length < 17 ∨ firmware.length ≤ size ∧ conn.data.length < 33

theorem take_drop_eq {l l' : List UInt8} (h : l <+: l') {k n : Nat} (hlen : k + n ≤ l.length) :
    (l.drop k).take n = (l'.drop k).take n := by
  obtain ⟨t, rfl⟩ := h
  rw [List.drop_append_of_le_length (by omega), List.take_append_of_le_length (by rw [List.length_drop]; omega)]

private theorem readHeader_sent {field firmware data : List UInt8} (hlen : firmware.length < 2 ^ 32) (hfield : field.length = md5Size)
    (h : data <+: request field firmware) : readHeader size data =
      if data.length < 17 then .error .malformedReq
      else if size < firmware.length then .error .firmwareTooBig
      else if data.length < 33 then .error .malformedReq
      else .ok ⟨magic, field, (sizeBytes firmware.length).reverse⟩ := by
  have hmagic : 13 ≤ data.length → data.take 13 = magic := fun hle => take_drop_eq (k := 0) h (by omega)
  have hsize : 17 ≤ data.length → (data.drop 13).take 4 = sizeBytes firmware.length := fun hle =>
    take_drop_eq (k := 13) (n := 4) h hle
  have hmd5 : 33 ≤ data.length → (data.drop 17).take 16 = field := by
    intro hle
    have hdrop : (request field firmware).drop 17 = field ++ firmware := rfl
    have hlen : field.length = 16 := hfield
    rw [take_drop_eq h hle, hdrop, List.take_append_of_le_length (Nat.le_of_eq hlen.symm),
      List.take_of_length_le (Nat.le_of_eq hlen)]
  have hfields := leNat_sizeBytes hlen
  rw [readHeader]
  by_cases h17 : data.length < 17
  · rw [if_pos (.inr (.inr h17)), if_pos h17]
  · rw [if_neg h17, hsize (by omega), hfields, hmagic (by omega)]
    rw [if_neg (by rintro (hlt | hne | hlt); exacts [by omega, hne rfl, h17 hlt])]
    by_cases hbig : size < firmware.length
    · rw [if_pos hbig, if_pos hbig]
    · by_cases h33 : data.length < 33
      · rw [if_neg hbig, if_pos h33, if_neg hbig, if_pos h33]
      · rw [if_neg hbig, if_neg h33, if_neg hbig, if_neg h33, hmd5 (by omega)]

variable {verifyMd5 : Bool} {md5 : List UInt8 → List UInt8} {firmware : List UInt8} {env : ReqEnv size} {d : Dev}

theorem Uploads.prefix_request (h : Uploads md5 firmware env.conn) :
    firmware.length < 2 ^ 32 ∧ env.conn.data <+: request (md5 firmware) firmware := by
  obtain ⟨ss, hsends, hprefix⟩ := h.sent
  obtain ⟨hlen, hstream⟩ := flatten_sends hsends
  exact ⟨hlen, hstream ▸ hprefix⟩

/-- Fields that come in one read each are all whole. -/
theorem headerWhole_of_fields {conn : Conn} (hfields : conn.Fields [13, 4, 16]) :
    HeaderWhole size true conn ∧ (33 ≤ conn.data.length → 16 ≤ (conn.skip 17).first.length) := by
  rcases hfields with hshort | ⟨hmagic, hfields⟩
  · exact ⟨fun h17 => by omega, fun h33 => by omega⟩
  · have hlen := Nat.le_trans hmagic (length_first_le conn)
    rw [Conn.after_eq_skip (by decide) hmagic] at hfields
    have hdata := congrArg List.length (Conn.data_skip hlen)
    rw [List.length_drop] at hdata
    rcases hfields with hshort | ⟨hsize, hfields⟩
    · exact ⟨fun h17 => by omega, fun h33 => by omega⟩
    · have hlen' := Nat.le_trans hsize (length_first_le _)
      rw [Conn.after_eq_skip (by decide) hsize, Conn.skip_skip hlen, show 13 + 4 = 17 from rfl] at hfields
      have hdata' := congrArg List.length (Conn.data_skip (by omega : 17 ≤ conn.data.length))
      rw [List.length_drop] at hdata'
      have hmd5 : 33 ≤ conn.data.length → 16 ≤ (conn.skip 17).first.length := by
        intro h33
        rcases hfields with hshort | ⟨hmd5, -⟩
        · omega
        · exact hmd5
      exact ⟨fun _ => ⟨hmagic, fun _ => ⟨hsize, fun _ harrived _ => hmd5 (by omega)⟩⟩, hmd5⟩

/-- What the header comes to. -/
theorem Uploads.header (h : Uploads md5 firmware env.conn) (hmd5 : (md5 firmware).length = md5Size) (hsized : d.header.Sized) :
    HeaderCut size firmware env.conn ∧ (recvHeader size d.header env.conn).1 = some .malformedReq ∨
      size < firmware.length ∧ 17 ≤ env.conn.data.length ∧ (recvHeader size d.header env.conn).1 = some .firmwareTooBig ∨
      firmware.length ≤ size ∧ 33 ≤ env.conn.data.length ∧
        ∃ c, recvHeader size d.header env.conn = (none, ⟨magic, md5 firmware, (sizeBytes firmware.length).reverse⟩, c) ∧
          env.conn.data = magic ++ (sizeBytes firmware.length ++ md5 firmware) ++ c.data ∧ c.data <+: firmware := by
  obtain ⟨hlen, hprefix⟩ := h.prefix_request
  obtain ⟨hwhole, hfield⟩ := headerWhole_of_fields h.fields
  have hrecv := recvHeader_whole hsized hwhole
  rw [readHeader_sent hlen hmd5 hprefix] at hrecv
  by_cases h17 : env.conn.data.length < 17
  · rw [if_pos h17] at hrecv
    exact .inl ⟨.inl h17, hrecv⟩
  · rw [if_neg h17] at hrecv
    by_cases hbig : size < firmware.length
    · rw [if_pos hbig] at hrecv
      exact .inr (.inl ⟨hbig, Nat.le_of_not_lt h17, hrecv⟩)
    · rw [if_neg hbig] at hrecv
      by_cases h33 : env.conn.data.length < 33
      · rw [if_pos h33] at hrecv
        exact .inl ⟨.inr ⟨Nat.le_of_not_lt hbig, h33⟩, hrecv⟩
      · rw [if_neg h33] at hrecv
        obtain ⟨field, hheader, -, hmd5'⟩ := hrecv
        obtain rfl := hmd5' (hfield (Nat.le_of_not_lt h33))
        have hdata := Conn.data_skip (Nat.le_of_not_lt h33)
        have hhead : (magic ++ (sizeBytes firmware.length ++ md5 firmware)).length = 33 := by
          rw [List.length_append, List.length_append, hmd5]
          rfl
        rw [request_eq] at hprefix
        obtain ⟨rest, hrest⟩ := List.prefix_of_prefix_length_le ⟨firmware, rfl⟩ hprefix (by omega)
        have hc : (env.conn.skip 33).data = rest := by rw [hdata, ← hrest, List.drop_append_of_le_length (by omega), List.drop_of_length_le (by omega), List.nil_append]
        refine .inr (.inr ⟨Nat.le_of_not_lt hbig, Nat.le_of_not_lt h33, env.conn.skip 33, hheader, by rw [hc, hrest], ?_⟩)
        rw [hc]
        rw [← hrest] at hprefix
        exact (List.prefix_append_right_inj _).1 hprefix

private theorem resp_recvLoop (part : UpdPart size) (headerSize fuel : Nat) (s : Recv) (r : Resp)
    (h : (recvLoop part headerSize fuel s).1 = some r) : r = .internalErr ∨ r = .firmwareUnexpectedEnd := by
  induction fuel generalizing s with
  | zero => cases h
  | succ fuel ih =>
    rw [recvLoop] at h
    split at h
    · split at h
      · cases h
        exact .inl rfl
      · split at h
        · cases h
          exact .inr rfl
        · dsimp only at h
          split at h
          · exact ih _ h
          · cases h
            exact .inl rfl
    · cases h

/-- How an upload ends. -/
inductive Ended (md5 : List UInt8 → List UInt8) (firmware : List UInt8) (env : ReqEnv size) (o : Outcome) : Prop
  | headerCut (hcut : HeaderCut size firmware env.conn) (hresp : o.resp = .malformedReq)
  | tooBig (hbig : size < firmware.length) (hlen : 17 ≤ env.conn.data.length) (hresp : o.resp = .firmwareTooBig)
  | noMemory (hfit : firmware.length ≤ size) (hlen : 33 ≤ env.conn.data.length) (hmalloc : env.malloc ≠ true) (hresp : o.resp = .internalErr)
  | cut (hfit : firmware.length ≤ size) (hlen : 33 ≤ env.conn.data.length)
    (hcut : ¬ (env.conn.data = request (md5 firmware) firmware ∧ ∀ w ∈ o.writes, w.ok = true))
    (hresp : o.resp = .internalErr ∨ o.resp = .firmwareUnexpectedEnd)
  | refused (hfit : firmware.length ≤ size) (hlen : 33 ≤ env.conn.data.length) (hboot : env.setBoot ≠ .ok) (hresp : o.resp = .espVerifyErr ∨ o.resp = .internalErr)
  | done (hfit : firmware.length ≤ size) (hlen : 33 ≤ env.conn.data.length) (hmalloc : env.malloc = true)
    (harrives : env.conn.data = request (md5 firmware) firmware) (hwrites : ∀ w ∈ o.writes, w.ok = true)
    (hset : env.setBoot = .ok) (hresp : o.resp = .ok) (hboot : o.dev.boot = .update)
    (himage : o.dev.image.bytes 0 firmware.length = firmware)

theorem Uploads.ended (h : Uploads md5 firmware env.conn) (hmd5 : (md5 firmware).length = md5Size) (hsized : d.header.Sized)
    {part : NorPartition size firmwareBlkSize} (hpart : env.part = part.toPartition) (herased : Erased d.image 0 size) :
    Ended md5 firmware env (handleReq verifyMd5 md5 env d) := by
  have hsize := leNat_sizeBytes h.prefix_request.1
  rcases h.header hmd5 hsized with ⟨hcut, hheader⟩ | ⟨hbig, hlen17, hheader⟩ | ⟨hfit, hlen33, c, hheader, hdata, hprefix⟩
  · rw [handleReq]
    generalize recvHeader size d.header env.conn = r at hheader ⊢
    obtain ⟨_, h', c'⟩ := r
    cases hheader
    exact .headerCut hcut rfl
  · rw [handleReq]
    generalize recvHeader size d.header env.conn = r at hheader ⊢
    obtain ⟨_, h', c'⟩ := r
    cases hheader
    exact .tooBig hbig hlen17 rfl
  · have harrives : env.conn.data = request (md5 firmware) firmware ↔ c.data = firmware := by
      rw [hdata, request_eq, List.append_cancel_left_eq]
    rw [handleReq, hheader]
    dsimp only
    rw [hsize]
    by_cases hmalloc : env.malloc = true
    · have hstart : Recv.Follows size c.data ⟨d.image, 0, c, []⟩ := ⟨rfl, herased, fun w hw => by cases hw⟩
      have hfollows := recvLoop_follows part c.data firmware.length firmware.length hstart (by dsimp only; omega)
      have hloop := data_recvLoop env.part firmware.length firmware.length (s := ⟨d.image, 0, c, []⟩) rfl
      have hresp := resp_recvLoop env.part firmware.length firmware.length ⟨d.image, 0, c, []⟩
      have hdelivered := recvLoop_delivered env.part firmware.length firmware.length (s := ⟨d.image, 0, c, []⟩)
      rw [← hpart] at hfollows
      rw [if_neg (not_not.2 hmalloc)]
      generalize recvLoop env.part firmware.length firmware.length ⟨d.image, 0, c, []⟩ = l at hfollows hloop hresp hdelivered ⊢
      obtain ⟨_ | r, l⟩ := l
      · obtain ⟨hl, hlen⟩ := hfollows rfl
        obtain ⟨hall, hcount⟩ := hloop rfl
        dsimp only at hl hlen hall hcount
        have hfirst : l.data <+: c.data := ⟨l.conn.data, hall⟩
        have hreceived : l.data = firmware := (hfirst.trans hprefix).eq_of_length_le (hcount ▸ hlen)
        have hwhole : c.data = firmware := hprefix.eq_of_length_le (hreceived ▸ hfirst.length_le)
        have himage : l.image.bytes 0 firmware.length = firmware := by
          obtain ⟨k, hk⟩ := Nat.exists_eq_add_of_le hlen
          have hbytes := hl.data
          rw [hk, Image.bytes_add, List.append_assoc, hwhole] at hbytes
          exact (List.prefix_iff_eq_take.1 ⟨_, hbytes⟩).trans (List.take_of_length_le (Nat.le_of_eq (Image.length_bytes _ _ _).symm))
        dsimp only
        rw [if_neg fun hmismatch => hmismatch.2 (congrArg md5 hreceived)]
        cases hset : env.setBoot with
        | ok => exact .done hfit hlen33 hmalloc (harrives.2 hwhole) hl.writes hset rfl rfl himage
        | validateFailed => exact .refused hfit hlen33 (hset ▸ SetBoot.noConfusion) (.inl rfl)
        | err => exact .refused hfit hlen33 (hset ▸ SetBoot.noConfusion) (.inr rfl)
      · refine .cut hfit hlen33 ?_ (hresp r rfl)
        rintro ⟨hall, hwrites⟩
        cases hdelivered (by rw [harrives.1 hall]; omega) hwrites
    · rw [if_pos hmalloc]
      exact .noMemory hfit hlen33 hmalloc rfl

private theorem length_request (field firmware : List UInt8) (hfield : field.length = md5Size) :
    (request field firmware).length = 33 + firmware.length := by
  have hhead : (magic ++ (sizeBytes firmware.length ++ field)).length = 33 := by
    rw [List.length_append, List.length_append, hfield]
    rfl
  rw [request_eq, List.length_append, hhead]

theorem Ended.resp_eq_ok_iff {o : Outcome} (h : Ended md5 firmware env o) (hmd5 : (md5 firmware).length = md5Size) : o.resp = .ok ↔
    firmware.length ≤ size ∧ env.malloc = true ∧ env.conn.data = request (md5 firmware) firmware ∧
      (∀ w ∈ o.writes, w.ok = true) ∧ env.setBoot = .ok := by
  cases h with
  | headerCut hcut hresp =>
    refine iff_of_false (by rw [hresp]; exact Resp.noConfusion) fun hall => ?_
    have hlen := congrArg List.length hall.2.2.1
    rw [length_request _ _ hmd5] at hlen
    rcases hcut with hcut | ⟨-, hcut⟩
    · omega
    · omega
  | tooBig hbig _ hresp => exact iff_of_false (by rw [hresp]; exact Resp.noConfusion) fun hall => Nat.not_lt.2 hall.1 hbig
  | noMemory _ _ hmalloc hresp => exact iff_of_false (by rw [hresp]; exact Resp.noConfusion) fun hall => hmalloc hall.2.1
  | cut _ _ hcut hresp =>
    refine iff_of_false ?_ fun hall => hcut ⟨hall.2.2.1, hall.2.2.2.1⟩
    rcases hresp with hresp | hresp
    · rw [hresp]
      exact Resp.noConfusion
    · rw [hresp]
      exact Resp.noConfusion
  | refused _ _ hboot hresp =>
    refine iff_of_false ?_ fun hall => hboot hall.2.2.2.2
    rcases hresp with hresp | hresp
    · rw [hresp]
      exact Resp.noConfusion
    · rw [hresp]
      exact Resp.noConfusion
  | done hfit _ hmalloc harrives hwrites hset hresp => exact iff_of_true hresp ⟨hfit, hmalloc, harrives, hwrites, hset⟩

/-- Which of the answers that blame the request can come, and when. -/
theorem Ended.blames {o : Outcome} (h : Ended md5 firmware env o) :
    (o.resp = .firmwareTooBig ↔ size < firmware.length ∧ 17 ≤ env.conn.data.length) ∧
      (o.resp = .malformedReq ↔ HeaderCut size firmware env.conn) ∧ o.resp ≠ .md5VerifyErr := by
  cases h with
  | headerCut hcut hresp =>
    have hnot : ¬ (size < firmware.length ∧ 17 ≤ env.conn.data.length) := by
      rcases hcut with hcut | ⟨hfit, -⟩
      · omega
      · omega
    rw [hresp]
    exact ⟨iff_of_false Resp.noConfusion hnot, iff_of_true rfl hcut, Resp.noConfusion⟩
  | tooBig hbig hlen hresp =>
    have hnot : ¬ HeaderCut size firmware env.conn := by
      rw [HeaderCut]
      omega
    rw [hresp]
    exact ⟨iff_of_true rfl ⟨hbig, hlen⟩, iff_of_false Resp.noConfusion hnot, Resp.noConfusion⟩
  | noMemory hfit hlen _ hresp | done hfit hlen _ _ _ _ hresp =>
    have hnot : ¬ HeaderCut size firmware env.conn := by
      rw [HeaderCut]
      omega
    rw [hresp]
    exact ⟨iff_of_false Resp.noConfusion fun hbig => Nat.not_lt.2 hfit hbig.1, iff_of_false Resp.noConfusion hnot, Resp.noConfusion⟩
  | cut hfit hlen _ hresp | refused hfit hlen _ hresp =>
    have hnot : ¬ HeaderCut size firmware env.conn := by
      rw [HeaderCut]
      omega
    rcases hresp with hresp | hresp
    · rw [hresp]
      exact ⟨iff_of_false Resp.noConfusion fun hbig => Nat.not_lt.2 hfit hbig.1, iff_of_false Resp.noConfusion hnot, Resp.noConfusion⟩
    · rw [hresp]
      exact ⟨iff_of_false Resp.noConfusion fun hbig => Nat.not_lt.2 hfit hbig.1, iff_of_false Resp.noConfusion hnot, Resp.noConfusion⟩

private theorem serve_snd (env : ReqEnv size) (d : Dev) :
    (Server.serve verifyMd5 md5 env d).2 = (handleReq verifyMd5 md5 env { d with priority := highPriority }).resp := by
  rw [Server.serve]
  dsimp only
  split
  next hok => exact hok.symm
  · split
    · split
      · rfl
      · rfl
    · rfl

private theorem serve_fst (h : (handleReq verifyMd5 md5 env { d with priority := highPriority }).resp = .ok) :
    (Server.serve verifyMd5 md5 env d).1 = ⟨.restarted, (handleReq verifyMd5 md5 env { d with priority := highPriority }).dev⟩ := by
  rw [Server.serve]
  dsimp only
  rw [if_pos h]

/-- **An upload with `ota.py`, at any time and however the connection splits and ends: the update is done exactly where the firmware fits, arrives and is written, and the board then restarts from it; else it waits with a clean partition or has stopped. It blames the request only where the header, as far as it is read, is cut.** -/
theorem ota_upload {boot : BootSel} {s : Server} (hs : (otaServer size verifyMd5 md5 boot).Reachable s) (hphase : s.phase = .accept)
    {part : NorPartition size firmwareBlkSize} (hpart : env.part = part.toPartition) (hmd5 : (md5 firmware).length = md5Size)
    (hup : Uploads md5 firmware env.conn) :
    ∃ t r, s.step verifyMd5 md5 (.request env) = some (t, some r) ∧
      (r = .ok ↔ firmware.length ≤ size ∧ env.malloc = true ∧ env.conn.data = request (md5 firmware) firmware ∧
        (∀ w ∈ (handleReq verifyMd5 md5 env { s.dev with priority := highPriority }).writes, w.ok = true) ∧ env.setBoot = .ok) ∧
      (r = .firmwareTooBig ↔ size < firmware.length ∧ 17 ≤ env.conn.data.length) ∧
      (r = .malformedReq ↔ HeaderCut size firmware env.conn) ∧ r ≠ .md5VerifyErr ∧
      (r = .ok → t.phase = .restarted ∧ t.dev.boot = .update ∧ t.dev.image.bytes 0 firmware.length = firmware) ∧
      (r ≠ .ok → t.phase = .stopped ∨ t.phase = .accept ∧ t.dev.Clean size boot) ∧
      ∀ (reply : Conn) fuel, reply.data.length < fuel → reply.data <+: r.bytes →
        (report fuel reply = .ok → r = .ok) ∧ (∀ msg, report fuel reply = .error msg → r ≠ .ok ∧ msg <+: ascii r.errMsg) ∧
          (report fuel reply = .malformed → reply.data = []) := by
  obtain ⟨hreach, hsized⟩ := reachable_otaServer hs
  obtain ⟨hsize, hclean⟩ := (Server.inv_of_reachable hreach).accept hphase
  have hended : Ended md5 firmware env (handleReq verifyMd5 md5 env { s.dev with priority := highPriority }) :=
    hup.ended hmd5 hsized hpart hclean.erased
  have hresp := @serve_snd _ verifyMd5 md5 env s.dev
  obtain ⟨hbig, hmalformed, hverify⟩ := hended.blames
  refine ⟨_, _, if_pos hphase, ?_, ?_, ?_, ?_, ?_, ?_, fun reply fuel hfuel hreply => report_spec hfuel hreply⟩
  · rw [hresp]
    exact hended.resp_eq_ok_iff hmd5
  · rw [hresp]
    exact hbig
  · rw [hresp]
    exact hmalformed
  · rw [hresp]
    exact hverify
  · intro hok
    rw [hresp] at hok
    rw [serve_fst hok]
    cases hended with
    | done _ _ _ _ _ _ _ hboot himage => exact ⟨rfl, hboot, himage⟩
    | headerCut _ hne | tooBig _ _ hne | noMemory _ _ _ hne => cases hok.symm.trans hne
    | cut _ _ _ hne | refused _ _ _ hne => rcases hne with hne | hne <;> cases hok.symm.trans hne
  · exact serve_clean verifyMd5 md5 env hsize hclean

end

/-- A digest that is not looked at. -/
def zeroMd5 (_ : List UInt8) : List UInt8 := List.replicate md5Size 0

theorem waiting_reachable_otaServer : (otaServer 4096 true zeroMd5 .running).Reachable waiting := by
  refine .step (s := { waiting with phase := .start }) (l := (.start true true true (plainPartition 4096 _).toPartition, none))
    (.init ⟨⟨rfl, rfl, rfl, rfl⟩, rfl, rfl, rfl⟩) trivial ?_
  show some (Server.begin true true true _ waiting.dev, none) = _
  rw [Server.begin, if_neg (by decide), checkUpdPart, if_pos rfl]
  rw [show waiting.dev.image = fun _ => 0xff from rfl, checkLoop_plain]
  rfl

theorem ota_upload_twoBytes : ∃ t, waiting.step true zeroMd5 (.request twoBytes) = some (t, some .ok) ∧
    t.phase = .restarted ∧ t.dev.boot = .update ∧ t.dev.image.bytes 0 2 = [0x41, 0x42] := by
  have huploads : Uploads zeroMd5 [0x41, 0x42] twoBytes.conn :=
    ⟨⟨_, rfl, by decide⟩, .inr ⟨by decide, .inr ⟨by decide, .inr ⟨by decide, trivial⟩⟩⟩⟩
  obtain ⟨t, r, hstep, hok, -, -, -, hdone, -⟩ := ota_upload waiting_reachable_otaServer rfl rfl rfl huploads
  obtain rfl : r = .ok := hok.2 ⟨by decide, rfl, by decide, by decide, rfl⟩
  exact ⟨t, hstep, hdone rfl⟩

end Vedruino.Ota
