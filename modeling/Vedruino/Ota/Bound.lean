import Vedruino.Ip.Cuts
import Vedruino.Ota.Clean

/-!
# The announced size and what follows it

`handle_req` reads whole buffers until at least `header.size` bytes are there, so a read that brings the last byte of the firmware may bring bytes behind it. It writes and counts these too. Where a read ends with the firmware, the response and the partition are a function of the bytes sent.
-/

namespace Vedruino.Ota

open Ip

/-- Nothing behind `header.size` is written or counted, whatever the flash does. -/
def SizeBounded (size : Nat) (h₀ : Header) (conn : Conn) : Prop :=
  ∀ (verifyMd5 : Bool) (md5 : List UInt8 → List UInt8) (env : ReqEnv size) (d : Dev),
    env.conn = conn → d.header = h₀ → d.partBytesWritten = 0 →
    let o := handleReq verifyMd5 md5 env d
    (∀ w ∈ o.writes, w.off + w.data.length ≤ leNat o.dev.header.size) ∧
      o.dev.partBytesWritten ≤ leNat o.dev.header.size

/-- A read ends with the firmware, where the request has one: the magic and the size are what the segments leave in the static memory, the sent ones where a field comes in one read. -/
def EndCut (size : Nat) (h₀ : Header) (conn : Conn) : Prop :=
  let n := leNat ((conn.skip 13).overlay 4 h₀.size).reverse
  33 ≤ conn.data.length → conn.overlay 13 h₀.magic = magic → n ≤ size → (conn.skip 33).CutAt firmwareBufSize n

section

variable {size headerSize : Nat} {s : Recv}

/-- The bytes written and counted end before the announced size. -/
def Recv.Bounded (headerSize : Nat) (s : Recv) : Prop :=
  (∀ w ∈ s.writes, w.off + w.data.length ≤ headerSize) ∧ s.partBytesWritten ≤ headerSize

private theorem recvLoop_bounded (part : UpdPart size) (fuel : Nat) (h : s.Bounded headerSize)
    (hcut : s.conn.CutAt firmwareBufSize (headerSize - s.partBytesWritten)) :
    (recvLoop part headerSize fuel s).2.Bounded headerSize := by
  induction fuel generalizing s with
  | zero => exact h
  | succ fuel ih =>
    rw [recvLoop]
    by_cases hlt : s.partBytesWritten < headerSize
    · rw [if_pos hlt]
      rcases hrecv : pkTcpRecv s.conn firmwareBufSize with ⟨_ | bs, c⟩
      · exact h
      · dsimp only
        by_cases hbs : bs.length = 0
        · rw [if_pos hbs]
          exact h
        · rw [if_neg hbs]
          have hne : bs ≠ [] := List.ne_nil_of_length_pos (Nat.pos_of_ne_zero hbs)
          obtain ⟨hfit, hcut'⟩ := (Conn.cutAt_iff (by omega) hne hrecv).1 hcut
          have hnext : Recv.Bounded headerSize ⟨(part.write s.image s.partBytesWritten bs).1, s.partBytesWritten + bs.length,
              c, s.writes ++ [⟨s.partBytesWritten, bs, (part.write s.image s.partBytesWritten bs).2⟩]⟩ := by
            refine ⟨?_, by dsimp only; omega⟩
            intro w hw
            rcases List.mem_append.1 hw with hw | hw
            · exact h.1 w hw
            · rw [List.mem_singleton.1 hw]
              dsimp only
              omega
          by_cases hok : (part.write s.image s.partBytesWritten bs).2 = true
          · rw [if_pos hok]
            refine ih hnext ?_
            rwa [← Nat.sub_sub]
          · rw [if_neg hok]
            exact hnext
    · rw [if_neg hlt]
      exact h

/-- On a flash that writes what is in range, the loop goes past an end that no read keeps to. -/
theorem recvLoop_past (part : UpdPart size) (hpart : part.Reliable) (hsize : headerSize ≤ size) (fuel : Nat)
    (hle : s.partBytesWritten ≤ headerSize) (hfuel : headerSize ≤ s.partBytesWritten + fuel)
    (hcut : ¬ s.conn.CutAt firmwareBufSize (headerSize - s.partBytesWritten)) :
    headerSize < (recvLoop part headerSize fuel s).2.partBytesWritten := by
  have hlt : s.partBytesWritten < headerSize := by
    by_contra hge
    rw [Nat.sub_eq_zero_of_le (Nat.le_of_not_lt hge)] at hcut
    exact hcut (Conn.cutAt_zero _ _)
  induction fuel generalizing s with
  | zero => omega
  | succ fuel ih =>
    rw [recvLoop, if_pos hlt]
    rcases hrecv : pkTcpRecv s.conn firmwareBufSize with ⟨_ | bs, c⟩
    · exact absurd (Conn.cutAt_of_data (data_of_pkTcpRecv_none hrecv)) hcut
    · dsimp only
      by_cases hbs : bs = []
      · have hdata := data_of_pkTcpRecv_some (by decide) hrecv
        rw [if_pos hbs] at hdata
        exact absurd (Conn.cutAt_of_data hdata) hcut
      · have hpos : 0 < bs.length := List.length_pos_iff.2 hbs
        rw [Conn.cutAt_iff (by omega) hbs hrecv, not_and] at hcut
        rw [if_neg (by omega)]
        by_cases hfit : bs.length ≤ headerSize - s.partBytesWritten
        · have hcut' := hcut hfit
          rw [Nat.sub_sub] at hcut'
          rw [if_pos (hpart _ _ _ (by omega))]
          refine ih (by dsimp only; omega) (by dsimp only; omega) hcut' ?_
          by_contra hge
          rw [Nat.sub_eq_zero_of_le (Nat.le_of_not_lt hge)] at hcut'
          exact hcut' (Conn.cutAt_zero _ _)
        · have hle' : headerSize < s.partBytesWritten + bs.length := by omega
          by_cases hok : (part.write s.image s.partBytesWritten bs).2 = true
          · rw [if_pos hok]
            cases fuel with
            | zero => exact hle'
            | succ fuel =>
              rw [recvLoop, if_neg (by dsimp only; omega)]
              exact hle'
          · rw [if_neg hok]
            exact hle'

/-- What the header comes to, by the bytes that are there and what they leave in the static memory. -/
theorem recvHeader_spec (size : Nat) (h₀ : Header) (conn : Conn) :
    let field := ((conn.skip 13).overlay 4 h₀.size).reverse
    (recvHeader size h₀ conn).1 =
        (if conn.data.length < 17 ∨ conn.overlay 13 h₀.magic ≠ magic then some .malformedReq
        else if leNat field > size then some .firmwareTooBig
        else if conn.data.length < 33 then some .malformedReq
        else none) ∧
      ((recvHeader size h₀ conn).1 = none → (recvHeader size h₀ conn).2 =
        (⟨magic, (conn.skip 17).overlay 16 h₀.md5, field⟩, conn.skip 33)) := by
  have hmagicLen : magic.length = 13 := rfl
  have hmd5Len : md5Size = 16 := rfl
  dsimp only
  rw [recvHeader, hmagicLen, hmd5Len]
  by_cases h13 : 13 ≤ conn.data.length
  · have hdata13 := congrArg List.length (Conn.data_skip h13)
    rw [List.length_drop] at hdata13
    rw [pkTcpRecvn_eq _ h13]
    by_cases hmagic : conn.overlay 13 h₀.magic = magic
    · by_cases h17 : 17 ≤ conn.data.length
      · have hdata17 := congrArg List.length (Conn.data_skip h17)
        rw [List.length_drop] at hdata17
        simp only [hmagic, pkTcpRecvn_eq h₀.size (by omega : 4 ≤ (conn.skip 13).data.length), Conn.skip_skip h13]
        by_cases hfit : size < leNat ((conn.skip 13).overlay 4 h₀.size).reverse
        · simp [hfit, Nat.not_lt.2 h17]
        · by_cases h33 : 33 ≤ conn.data.length
          · simp [hfit, Nat.not_lt.2 h17, Nat.not_lt.2 h33, pkTcpRecvn_eq h₀.md5 (by omega : 16 ≤ (conn.skip 17).data.length),
              Conn.skip_skip h17]
          · simp [hfit, Nat.not_lt.2 h17, Nat.lt_of_not_le h33,
              pkTcpRecvn_short h₀.md5 (by omega : (conn.skip 17).data.length < 16)]
      · simp [hmagic, Nat.lt_of_not_le h17, pkTcpRecvn_short h₀.size (by omega : (conn.skip 13).data.length < 4)]
    · simp [hmagic]
  · have h17 : conn.data.length < 17 := by omega
    simp [h17, pkTcpRecvn_short h₀.magic (Nat.lt_of_not_le h13)]

theorem recvHeader_iff {h₀ h : Header} {conn c : Conn} :
    recvHeader size h₀ conn = (none, h, c) ↔
      33 ≤ conn.data.length ∧ conn.overlay 13 h₀.magic = magic ∧
        leNat ((conn.skip 13).overlay 4 h₀.size).reverse ≤ size ∧
        h = ⟨magic, (conn.skip 17).overlay 16 h₀.md5, ((conn.skip 13).overlay 4 h₀.size).reverse⟩ ∧ c = conn.skip 33 := by
  obtain ⟨hresp, hrest⟩ := recvHeader_spec size h₀ conn
  generalize recvHeader size h₀ conn = r at hresp hrest
  obtain ⟨resp, h', c'⟩ := r
  dsimp only at hresp hrest
  constructor
  · intro h
    cases h
    split at hresp
    · cases hresp
    · next hmagic =>
      split at hresp
      · cases hresp
      · next hfit =>
        split at hresp
        · cases hresp
        · next h33 =>
          obtain ⟨hh, hc⟩ := Prod.mk.inj (hrest rfl)
          exact ⟨Nat.le_of_not_lt h33, not_not.1 fun hne => hmagic (.inr hne), Nat.le_of_not_lt hfit, hh, hc⟩
  · rintro ⟨h33, hmagic, hfit, rfl, rfl⟩
    rw [if_neg (by rintro (hlt | hne); exacts [by omega, hne hmagic]), if_neg (Nat.not_lt.2 hfit),
      if_neg (Nat.not_lt.2 h33)] at hresp
    obtain ⟨rfl, rfl⟩ := Prod.mk.inj (hrest hresp)
    rw [hresp]

/-! ### The request by its bytes alone -/

/-- The header that a stream begins with, or the response without one. -/
def readHeader (size : Nat) (data : List UInt8) : Except Resp Header :=
  let field := ((data.drop 13).take 4).reverse
  if data.length < 13 ∨ data.take 13 ≠ magic ∨ data.length < 17 then .error .malformedReq
  else if leNat field > size then .error .firmwareTooBig
  else if data.length < 33 then .error .malformedReq
  else .ok ⟨magic, (data.drop 17).take 16, field⟩

/-- What a stream that ends well or `broken` comes to: the firmware is the bytes announced, and what follows is not looked at. -/
def served (size : Nat) (verifyMd5 : Bool) (md5 : List UInt8 → List UInt8) (malloc : Bool) (setBoot : SetBoot) (m : Image)
    (data : List UInt8) (broken : Bool) : Resp × Image :=
  match readHeader size data with
  | .error resp => (resp, m)
  | .ok h =>
    let firmware := (data.drop 33).take (leNat h.size)
    if ¬ malloc then (.internalErr, m)
    else
      (if firmware.length < leNat h.size then if broken then .internalErr else .firmwareUnexpectedEnd
        else if verifyMd5 ∧ md5 firmware ≠ h.md5 then .md5VerifyErr
        else
          match setBoot with
          | .ok => .ok
          | .validateFailed => .espVerifyErr
          | .err => .internalErr,
        m.clear 0 firmware)

/-- The sizes of the static `header`. -/
structure Header.Sized (h : Header) : Prop where
  magic : h.magic.length = 13
  md5 : h.md5.length = 16
  size : h.size.length = 4

/-- The response and the partition are those of the bytes sent, on a flash that works. -/
def StreamOnly (size : Nat) (verifyMd5 : Bool) (h₀ : Header) (conn : Conn) : Prop :=
  ∀ (md5 : List UInt8 → List UInt8) (part : NorPartition size firmwareBlkSize) (env : ReqEnv size) (d : Dev),
    h₀.Sized → part.Reliable → env.part = part.toPartition → env.conn = conn → d.header = h₀ →
    ((handleReq verifyMd5 md5 env d).resp, (handleReq verifyMd5 md5 env d).dev.image) =
      served size verifyMd5 md5 env.malloc env.setBoot d.image conn.data conn.broken

/-- Each field that the answer depends on comes in one read: the magic and what is behind it where the size has arrived, the size where the magic is right, the MD5 where it is compared. -/
def HeaderWhole (size : Nat) (verifyMd5 : Bool) (conn : Conn) : Prop :=
  let n := leNat ((conn.data.drop 13).take 4).reverse
  17 ≤ conn.data.length → 13 ≤ conn.first.length ∧
    (conn.data.take 13 = magic → 4 ≤ (conn.skip 13).first.length ∧
      (n ≤ size → 33 + n ≤ conn.data.length → verifyMd5 = true → 16 ≤ (conn.skip 17).first.length))

private theorem readHeader_ok {data : List UInt8} {h : Header} (hread : readHeader size data = .ok h) :
    data.take 13 = magic ∧ h = ⟨magic, (data.drop 17).take 16, ((data.drop 13).take 4).reverse⟩ ∧ leNat h.size ≤ size ∧
      33 ≤ data.length := by
  rw [readHeader] at hread
  split at hread
  · cases hread
  · next hmagic =>
    split at hread
    · cases hread
    · next hfit =>
      split at hread
      · cases hread
      · next h33 =>
        cases hread
        exact ⟨not_not.1 fun hne => hmagic (.inr (.inl hne)), rfl, Nat.le_of_not_lt hfit, Nat.le_of_not_lt h33⟩

/-- With its fields whole, the header received is the one that the stream begins with. -/
theorem recvHeader_whole {h₀ : Header} (hsized : h₀.Sized) {verifyMd5 : Bool} {conn : Conn}
    (hwhole : HeaderWhole size verifyMd5 conn) :
    match readHeader size conn.data with
    | .error resp => (recvHeader size h₀ conn).1 = some resp
    | .ok h => ∃ md5, recvHeader size h₀ conn = (none, { h with md5 }, conn.skip 33) ∧ 33 ≤ conn.data.length ∧
        (16 ≤ (conn.skip 17).first.length → md5 = h.md5) := by
  obtain ⟨hresp, hrest⟩ := recvHeader_spec size h₀ conn
  rw [readHeader]
  by_cases h17 : conn.data.length < 17
  · rw [if_pos (.inl h17)] at hresp
    rw [if_pos (.inr (.inr h17))]
    exact hresp
  · obtain ⟨hfirst, hwhole⟩ := hwhole (Nat.le_of_not_lt h17)
    rw [Conn.overlay_of_le_first hsized.magic (by decide) hfirst] at hresp
    by_cases hmagic : conn.data.take 13 = magic
    · obtain ⟨hsize, -⟩ := hwhole hmagic
      rw [Conn.overlay_of_le_first hsized.size (by decide) hsize, Conn.data_skip (by omega),
        if_neg (by rintro (hlt | hne); exacts [h17 hlt, hne hmagic])] at hresp
      rw [if_neg (by rintro (hlt | hne | hlt); exacts [by omega, hne hmagic, h17 hlt])]
      rw [Conn.overlay_of_le_first hsized.size (by decide) hsize, Conn.data_skip (by omega)] at hrest
      by_cases hfit : leNat ((conn.data.drop 13).take 4).reverse > size
      · rw [if_pos hfit] at hresp
        rw [if_pos hfit]
        exact hresp
      · rw [if_neg hfit] at hresp
        rw [if_neg hfit]
        by_cases h33 : conn.data.length < 33
        · rw [if_pos h33] at hresp
          rw [if_pos h33]
          exact hresp
        · rw [if_neg h33] at hresp
          rw [if_neg h33]
          refine ⟨_, Prod.ext hresp (hrest hresp), Nat.le_of_not_lt h33, ?_⟩
          intro hmd5
          rw [Conn.overlay_of_le_first hsized.md5 (by decide) hmd5, Conn.data_skip (by omega)]
    · rw [if_pos (.inr hmagic)] at hresp
      rw [if_pos (.inr (.inl hmagic))]
      exact hresp

/-- What the loop makes of the rest of the firmware when a read ends with it. -/
theorem recvLoop_served (part : NorPartition size firmwareBlkSize) (hpart : part.Reliable) (hsize : headerSize ≤ size)
    (fuel : Nat) (hfuel : headerSize ≤ s.partBytesWritten + fuel)
    (hle : s.partBytesWritten ≤ headerSize) (hcut : s.conn.CutAt firmwareBufSize (headerSize - s.partBytesWritten)) :
    let firmware := s.conn.data.take (headerSize - s.partBytesWritten)
    let l := recvLoop part.toPartition headerSize fuel s
    l.1 = (if firmware.length < headerSize - s.partBytesWritten then
        some (if s.conn.broken then .internalErr else .firmwareUnexpectedEnd) else none) ∧
      l.2.image = s.image.clear s.partBytesWritten firmware ∧ l.2.data = s.data ++ firmware := by
  induction fuel generalizing s with
  | zero =>
    have hzero : headerSize - s.partBytesWritten = 0 := by omega
    simp [recvLoop, hzero, Image.clear_nil]
  | succ fuel ih =>
    rw [recvLoop]
    by_cases hlt : s.partBytesWritten < headerSize
    · have hleft : 0 < headerSize - s.partBytesWritten := by omega
      rw [if_pos hlt]
      rcases hrecv : pkTcpRecv s.conn firmwareBufSize with ⟨_ | bs, c⟩
      · simp [data_of_pkTcpRecv_none hrecv, broken_of_pkTcpRecv_none hrecv, hleft, Image.clear_nil, Recv.data]
      · have hdata := data_of_pkTcpRecv_some (by decide) hrecv
        dsimp only
        by_cases hbs : bs = []
        · rw [if_pos hbs] at hdata
          simp [hbs, hdata, not_broken_of_pkTcpRecv_nil (by decide) (hbs ▸ hrecv), hleft, Image.clear_nil, Recv.data]
        · have hpos : 0 < bs.length := List.length_pos_iff.2 hbs
          obtain ⟨hfit, hcut'⟩ := (Conn.cutAt_iff hleft hbs hrecv).1 hcut
          have hok := hpart s.image s.partBytesWritten bs (by omega)
          rw [Nat.sub_sub] at hcut'
          rw [if_neg hbs] at hdata
          rw [if_neg (by omega), if_pos hok]
          obtain ⟨hend, himage, hfirmware⟩ := ih (s := ⟨(part.write s.image s.partBytesWritten bs).1,
            s.partBytesWritten + bs.length, c, s.writes ++ [⟨s.partBytesWritten, bs, (part.write s.image s.partBytesWritten bs).2⟩]⟩)
            (by dsimp only; omega) (by dsimp only; omega) hcut'
          have htake : s.conn.data.take (headerSize - s.partBytesWritten) =
              bs ++ c.data.take (headerSize - (s.partBytesWritten + bs.length)) := by
            rw [hdata, List.take_append, List.take_of_length_le hfit, Nat.sub_sub]
          rw [htake, broken_of_pkTcpRecv hbs hrecv]
          refine ⟨hend.trans ?_, himage.trans ?_, hfirmware.trans ?_⟩
          · dsimp only
            rw [List.length_append]
            congr 1
            rw [eq_iff_iff]
            omega
          · dsimp only
            rw [part.write_eq_clear hok, Image.clear_append]
          · simp [Recv.data]
    · have hzero : headerSize - s.partBytesWritten = 0 := by omega
      rw [if_neg hlt]
      simp [hzero, Image.clear_nil]

private theorem recvHeader_fits {h₀ h : Header} {conn c : Conn} (hheader : recvHeader size h₀ conn = (none, h, c)) :
    leNat h.size ≤ size := by
  obtain ⟨-, -, hfit, rfl, -⟩ := recvHeader_iff.1 hheader
  exact hfit

theorem EndCut.cutAt {h₀ h : Header} {conn c : Conn} (hcut : EndCut size h₀ conn)
    (hheader : recvHeader size h₀ conn = (none, h, c)) : c.CutAt firmwareBufSize (leNat h.size) := by
  obtain ⟨h33, hmagic, hfit, rfl, rfl⟩ := recvHeader_iff.1 hheader
  exact hcut h33 hmagic hfit

private theorem sizeBounded_of_endCut {h₀ : Header} {conn : Conn} (hcut : EndCut size h₀ conn) : SizeBounded size h₀ conn := by
  intro verifyMd5 md5 env d hconn hheader hzero
  dsimp only
  rw [handleReq, hconn, hheader]
  rcases hrecv : recvHeader size h₀ conn with ⟨_ | resp, h, c⟩
  · dsimp only
    by_cases hmalloc : env.malloc = true
    · rw [if_neg (not_not.2 hmalloc)]
      have hbounded : (recvLoop env.part (leNat h.size) (leNat h.size) ⟨d.image, 0, c, []⟩).2.Bounded (leNat h.size) :=
        recvLoop_bounded env.part _ ⟨List.forall_mem_nil _, Nat.zero_le _⟩ (hcut.cutAt hrecv)
      generalize recvLoop env.part (leNat h.size) (leNat h.size) ⟨d.image, 0, c, []⟩ = l at hbounded
      obtain ⟨end?, l⟩ := l
      cases end? with
      | some resp => exact hbounded
      | none =>
        dsimp only
        split
        · exact hbounded
        · cases env.setBoot <;> exact hbounded
    · rw [if_pos hmalloc]
      exact ⟨List.forall_mem_nil _, by dsimp only; omega⟩
  · exact ⟨List.forall_mem_nil _, by dsimp only; omega⟩

private theorem endCut_of_sizeBounded {h₀ : Header} {conn : Conn} (hbounded : SizeBounded size h₀ conn) : EndCut size h₀ conn := by
  intro h33 hmagic hfit
  by_contra hcut
  have hrecv := recvHeader_iff.2 ⟨h33, hmagic, hfit, rfl, rfl⟩
  have hpast := recvLoop_past (s := ⟨fun _ => 0xff, 0, conn.skip 33, []⟩) (plainPartition size firmwareBlkSize).toPartition
    (plainPartition_reliable size firmwareBlkSize) hfit _ (Nat.zero_le _) (Nat.le_add_left _ _) hcut
  have hcount := (hbounded false id ⟨conn, true, (plainPartition size firmwareBlkSize).toPartition, .ok⟩
    ⟨h₀, fun _ => 0xff, 0, .running, lowPriority⟩ rfl rfl rfl).2
  rw [handleReq, hrecv] at hcount
  dsimp only at hcount
  rw [if_neg (by decide)] at hcount
  generalize recvLoop (plainPartition size firmwareBlkSize).toPartition _ _
    ⟨fun _ => 0xff, 0, conn.skip 33, []⟩ = l at hpast hcount
  obtain ⟨end?, l⟩ := l
  cases end? with
  | some resp => exact absurd hcount hpast.not_ge
  | none => exact absurd hcount hpast.not_ge

private theorem streamOnly_of_endCut {h₀ : Header} {verifyMd5 : Bool} {conn : Conn} (hcut : EndCut size h₀ conn)
    (hwhole : HeaderWhole size verifyMd5 conn) : StreamOnly size verifyMd5 h₀ conn := by
  intro md5 part env d hsized hpart henv hconn hheader
  have hread := recvHeader_whole hsized hwhole
  unfold served
  rw [handleReq, hconn, hheader]
  cases hmatch : readHeader size conn.data with
  | error resp =>
    rw [hmatch] at hread
    dsimp only at hread ⊢
    rw [hread]
  | ok h =>
    rw [hmatch] at hread
    obtain ⟨field, hrecv, h33, hfield⟩ := hread
    obtain ⟨hmagic, hheader', hfit, -⟩ := readHeader_ok hmatch
    have hdata := Conn.data_skip h33
    have hlen := congrArg List.length hdata
    dsimp only
    rw [hrecv]
    dsimp only
    by_cases hmalloc : env.malloc = true
    · rw [if_neg (not_not.2 hmalloc), if_neg (not_not.2 hmalloc), henv]
      obtain ⟨hend, himage, hfirmware⟩ := recvLoop_served (s := ⟨d.image, 0, conn.skip 33, []⟩) part hpart (recvHeader_fits hrecv)
        (leNat h.size) (by dsimp only; omega) (Nat.zero_le _) (hcut.cutAt hrecv)
      dsimp only at hend himage hfirmware
      generalize recvLoop part.toPartition (leNat h.size) (leNat h.size) ⟨d.image, 0, conn.skip 33, []⟩ = l at hend himage hfirmware
      obtain ⟨end?, l⟩ := l
      dsimp only at hend himage hfirmware ⊢
      rw [Nat.sub_zero, hdata, Conn.broken_skip h33] at hend
      rw [Nat.sub_zero, hdata] at himage hfirmware
      rw [show Recv.data ⟨d.image, 0, conn.skip 33, []⟩ = [] from rfl, List.nil_append] at hfirmware
      rw [himage, hfirmware, hend]
      by_cases hshort : ((conn.data.drop 33).take (leNat h.size)).length < leNat h.size
      · rw [if_pos hshort, if_pos hshort]
      · rw [if_neg hshort, if_neg hshort]
        -- the MD5 is compared only where the firmware has arrived
        have hmd5 : verifyMd5 = true → field = h.md5 := by
          intro hverify
          rw [List.length_take, List.length_drop] at hshort
          rw [hheader'] at hfit hshort
          exact hfield (((hwhole (by omega)).2 hmagic).2 hfit (by dsimp only at hshort; omega) hverify)
        have hcompare : (verifyMd5 = true ∧ md5 ((conn.data.drop 33).take (leNat h.size)) ≠ field) ↔
            (verifyMd5 = true ∧ md5 ((conn.data.drop 33).take (leNat h.size)) ≠ h.md5) := by
          apply and_congr_right
          intro hverify
          rw [hmd5 hverify]
        dsimp only
        rw [if_congr hcompare rfl rfl]
        split
        · rfl
        · cases env.setBoot <;> rfl
    · rw [if_pos hmalloc, if_pos hmalloc]

/-- A magic in several reads leaves the answer to what the static memory held before, unless the stream is malformed anyway. -/
theorem first_of_streamOnly {verifyMd5 : Bool} {conn : Conn} (hread : readHeader size conn.data ≠ .error .malformedReq)
    (hstream : ∀ h₀ : Header, h₀.Sized → StreamOnly size verifyMd5 h₀ conn) : 13 ≤ conn.first.length := by
  by_contra hsplit
  let h₀ : Header := ⟨List.replicate 13 0, List.replicate 16 0, List.replicate 4 0⟩
  have hlast : (pkTcpRecvn conn h₀.magic 13).2.1[12]? = some 0 := getElem?_pkTcpRecvn_last (Nat.lt_of_not_le hsplit)
  have hresp : (recvHeader size h₀ conn).1 = some .malformedReq := by
    rw [(recvHeader_spec size h₀ conn).1]
    by_cases h17 : conn.data.length < 17
    · rw [if_pos (.inl h17)]
    · have hne : conn.overlay 13 h₀.magic ≠ magic := by
        intro hmagic
        rw [pkTcpRecvn_eq _ (by omega), hmagic] at hlast
        have hlast' : magic[12]? = some 0 := hlast
        cases hlast'
      rw [if_pos (.inr hne)]
  have heq := congrArg Prod.fst (hstream h₀ ⟨rfl, rfl, rfl⟩ id (plainPartition size firmwareBlkSize)
    ⟨conn, true, (plainPartition size firmwareBlkSize).toPartition, .ok⟩ ⟨h₀, fun _ => 0xff, 0, .running, lowPriority⟩
    ⟨rfl, rfl, rfl⟩ (plainPartition_reliable size firmwareBlkSize) rfl rfl rfl)
  rw [handleReq, hresp, served] at heq
  cases hmatch : readHeader size conn.data with
  | error resp =>
    rw [hmatch] at heq hread
    exact hread (congrArg Except.error heq.symm)
  | ok h =>
    rw [hmatch] at heq
    dsimp only at heq
    rw [if_neg (by decide)] at heq
    split at heq
    · split at heq <;> cases heq
    · split at heq <;> cases heq

/-- **The announced size is a bound exactly where a read ends with the firmware.** There the response and the partition depend on the bytes sent alone, if each field of the header that the answer depends on comes in one read. -/
theorem sizeBounded_iff (size : Nat) (h₀ : Header) (conn : Conn) :
    (SizeBounded size h₀ conn ↔ EndCut size h₀ conn) ∧
      ∀ verifyMd5, EndCut size h₀ conn → HeaderWhole size verifyMd5 conn → StreamOnly size verifyMd5 h₀ conn :=
  ⟨⟨endCut_of_sizeBounded, sizeBounded_of_endCut⟩, fun _ => streamOnly_of_endCut⟩

end

def oneByteHeader : List UInt8 := magic ++ ([0, 0, 0, 1] ++ List.replicate 16 0)

def sendSegments (conn : Conn) : ReqEnv 4096 where
  conn
  malloc := true
  part := (plainPartition 4096 firmwareBlkSize).toPartition
  setBoot := .ok

/-- A byte behind the firmware is written and counted when it comes in the same segment, and is not when it comes in the next one. -/
theorem not_sizeBounded_oneByte :
    ¬ SizeBounded 4096 waiting.dev.header [some (oneByteHeader ++ [0x41, 0x42])] ∧
      (handleReq false id (sendSegments [some (oneByteHeader ++ [0x41, 0x42])]) waiting.dev).dev.image 1 = 0x42 ∧
      (handleReq false id (sendSegments [some (oneByteHeader ++ [0x41]), some [0x42]]) waiting.dev).dev.image 1 = 0xff := by
  refine ⟨?_, rfl, rfl⟩
  intro h
  have hcount := (h false id (sendSegments [some (oneByteHeader ++ [0x41, 0x42])]) waiting.dev rfl rfl rfl).2
  exact absurd hcount (by decide)

end Vedruino.Ota
