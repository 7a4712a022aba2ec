import Mathlib.Algebra.Order.BigOperators.Group.List
import Vedruino.Netlog.BoardInfo
import Vedruino.Netlog.FanOut

/-!
# The log stream of one client

While no send fails, a client gets every block of every flush, and the blocks of a flush are the flushed buffer. A TCP client still misses bytes when a write accepts a part of a block only, since the flush goes on with the next block. A UDP client gets each block in a packet of its own behind a counter, and loses what does not fit the buffer it receives packets with.
-/

namespace Vedruino.Netlog

open Ip

/-! ### The sends to one client -/

/-- The flush from offset `sent` as one client sees it while no send fails. -/
def clientSends (cfg : Config) (out : Outcomes) (buf : List UInt8) (udp : Bool) : Nat → Nat → Client → Client × List Send
  | 0, _, c => (c, [])
  | fuel + 1, sent, c =>
    if sent < buf.length then
      let size := if udp then min (buf.length - sent) cfg.bufSize else buf.length - sent
      let data := (buf.drop sent).take size
      let r := clientSends cfg out buf udp fuel (sent + size) c.sent
      (r.1, sendClient out sent data data c :: r.2)
    else (c, [])

variable {cfg : Config} {out : Outcomes} {buf : List UInt8} {udp : Bool} {a : List Char}

private theorem udpCount_map_sent (cs : List Client) : udpCount (cs.map Client.sent) = udpCount cs := by
  rw [udpCount, udpCount, List.countP_map]
  apply List.countP_congr
  intro c _
  rw [Function.comp_apply, Client.sent_flag]

variable (cfg buf) in
theorem flushList_client (hout : ∀ a off n, (out a off n).isSome = true) (fuel lo : Nat) {cs : List Client} {c : Client}
    (hnodup : (cs.map Client.addrStr).Nodup) (hc : c ∈ cs) (hudp : udp = decide (udpCount cs ≠ 0)) :
    (clientSends cfg out buf udp fuel lo c).1 ∈ (flushList cfg out buf fuel lo cs).1 ∧
      sendsTo c.addrStr (flushList cfg out buf fuel lo cs).2 = (clientSends cfg out buf udp fuel lo c).2 := by
  induction fuel generalizing lo cs c with
  | zero => exact ⟨hc, rfl⟩
  | succ fuel ih =>
    rw [flushList, clientSends]
    by_cases hlt : lo < buf.length
    · have hsize : blkSize cfg cs (buf.length - lo) = if udp then min (buf.length - lo) cfg.bufSize else buf.length - lo := by
        rw [blkSize, hudp]
        by_cases hzero : udpCount cs = 0 <;> simp [hzero]
      rw [if_pos hlt, if_pos hlt, hsize]
      generalize (if udp then min (buf.length - lo) cfg.bufSize else buf.length - lo) = size
      dsimp only
      rw [pass_calm hout]
      have hnodup' : ((cs.map Client.sent).map Client.addrStr).Nodup := by
        rwa [List.map_map, Client.addrStr_comp_sent]
      obtain ⟨hmem, hsends⟩ := ih (lo + size) hnodup' (List.mem_map_of_mem hc) (by rw [udpCount_map_sent]; exact hudp)
      refine ⟨hmem, ?_⟩
      rw [Client.sent_addrStr] at hsends
      rw [sendsTo_cons, filter_sends_eq out lo _ hnodup hc, hsends, List.singleton_append]
    · rw [if_neg hlt, if_neg hlt]
      exact ⟨hc, rfl⟩

private theorem clientSends_fixed (fuel lo : Nat) (c : Client) : (clientSends cfg out buf udp fuel lo c).1.fixed = c.fixed := by
  induction fuel generalizing lo c with
  | zero => rfl
  | succ fuel ih =>
    rw [clientSends]
    split
    · exact (ih _ _).trans c.sent_fixed
    · rfl

/-- The payloads are the buffer from the offset on. -/
theorem flatten_payload_clientSends (fuel lo : Nat) (c : Client) (hfuel : buf.length - lo ≤ fuel) :
    ((clientSends cfg out buf udp fuel lo c).2.map Send.payload).flatten = buf.drop lo := by
  induction fuel generalizing lo c with
  | zero =>
    rw [List.drop_eq_nil_of_le (by omega)]
    rfl
  | succ fuel ih =>
    rw [clientSends]
    by_cases hlt : lo < buf.length
    · have hpos := cfg.bufSize_pos
      rw [if_pos hlt]
      dsimp only
      rw [List.map_cons, List.flatten_cons, sendClient_payload, ih _ _ (by split <;> omega), ← List.drop_drop,
        List.take_append_drop]
    · rw [if_neg hlt, List.drop_eq_nil_of_le (by omega)]
      rfl

/-- The longest packet of a UDP client is the first one. -/
theorem payload_length_clientSends (fuel lo : Nat) (c : Client) (n : Nat) (hfuel : buf.length - lo ≤ fuel) :
    (∀ s ∈ (clientSends cfg out buf true fuel lo c).2, s.payload.length ≤ n) ↔ min (buf.length - lo) cfg.bufSize ≤ n := by
  induction fuel generalizing lo c with
  | zero => simp [clientSends, show buf.length - lo = 0 by omega]
  | succ fuel ih =>
    rw [clientSends]
    by_cases hlt : lo < buf.length
    · have hpos := cfg.bufSize_pos
      rw [if_pos hlt, if_pos rfl]
      dsimp only
      rw [List.forall_mem_cons, sendClient_payload, List.length_take, List.length_drop, ih _ _ (by omega)]
      omega
    · rw [if_neg hlt]
      simp [show buf.length - lo = 0 by omega]

private theorem mem_clientSends {fuel lo : Nat} {c : Client} {x : Send} (hx : x ∈ (clientSends cfg out buf udp fuel lo c).2) :
    ∃ d off data, d.fixed = c.fixed ∧ x = sendClient out off data data d := by
  induction fuel generalizing lo c with
  | zero => cases hx
  | succ fuel ih =>
    rw [clientSends] at hx
    split at hx
    · rcases List.mem_cons.1 hx with rfl | hx
      · exact ⟨c, _, _, rfl, rfl⟩
      · obtain ⟨d, off, data, hfixed, rfl⟩ := ih hx
        exact ⟨d, off, data, hfixed.trans c.sent_fixed, rfl⟩
    · cases hx

theorem flatten_map_take_iff {α β : Type*} (f : β → List α) (n : β → Nat) (xs : List β) :
    (xs.map fun x => (f x).take (n x)).flatten = (xs.map f).flatten ↔ ∀ x ∈ xs, (f x).length ≤ n x := by
  constructor
  · intro h
    have hlen := congrArg List.length h
    rw [List.length_flatten, List.length_flatten, List.map_map, List.map_map] at hlen
    clear h
    induction xs with
    | nil => exact List.forall_mem_nil _
    | cons x xs ih =>
      have hle : (xs.map (List.length ∘ fun x => (f x).take (n x))).sum ≤ (xs.map (List.length ∘ f)).sum := by
        apply List.sum_le_sum
        intro y _
        exact List.length_take_le' _ _
      rw [List.map_cons, List.map_cons, List.sum_cons, List.sum_cons, Function.comp_apply, Function.comp_apply,
        List.length_take] at hlen
      rw [List.forall_mem_cons]
      exact ⟨by omega, ih (by omega)⟩
  · intro h
    refine congrArg List.flatten (List.map_congr_left fun x hx => ?_)
    exact List.take_of_length_le (h x hx)

/-! ### From a subscription on -/

/-- A run in which a client stays in the table and no send fails: what is flushed and the sends to the client. -/
inductive LogStream (cfg : Config) (a : List Char) (s : Control) : List (List UInt8) → List Send → Control → Prop
  | start : LogStream cfg a s [] [] s
  | flush {bufs ss t u out udpbuf buf} : LogStream cfg a s bufs ss t → (∀ a off n, (out a off n).isSome = true) →
      t.step cfg (.flush out udpbuf buf) = some (u, none) →
      LogStream cfg a s (bufs ++ [buf]) (ss ++ sendsTo a (flushWithShstack cfg out udpbuf buf t.table).2) u
  | other {bufs ss t u i resp} : LogStream cfg a s bufs ss t → (∀ out udpbuf buf, i ≠ .flush out udpbuf buf) →
      t.step cfg i = some (u, resp) → a ∈ u.table.live.map Client.addrStr → LogStream cfg a s bufs ss u

theorem entry_step {s t : Control} {i : Input} {resp : Option Resp} {c : Client} (hs : s.Inv cfg)
    (hstep : s.step cfg i = some (t, resp)) (hi : ∀ out udpbuf buf, i ≠ .flush out udpbuf buf) (hc : c ∈ s.table.live)
    (ha : c.addrStr ∈ t.table.live.map Client.addrStr) : c ∈ t.table.live := by
  have hkept : t.table.live.Sublist s.table.live ∨
      ∃ d : Client, d.addrStr ∉ s.table.live.map Client.addrStr ∧ t.table.live = s.table.live ++ [d] := by
    have horder := hs.orderKept hstep
    match i with
    | .request _ _ _ | .go _ _ => exact horder
    | .flush out udpbuf buf => exact absurd rfl (hi out udpbuf buf)
  rcases hkept with hsub | ⟨d, -, hlive⟩
  · obtain ⟨d, hd, haddr⟩ := List.mem_map.1 ha
    rwa [List.inj_on_of_nodup_map hs.distinct hc (hsub.mem hd) haddr.symm]
  · rw [hlive]
    exact List.mem_append_left _ hc

/-- Every state of the run is in order, and the client keeps an entry there that agrees with a receiver of its packets. -/
theorem LogStream.follow {s t : Control} {bufs : List (List UInt8)} {ss : List Send} {c : Client} (hs : s.Inv cfg)
    (hc : c ∈ s.table.live) (hrun : LogStream cfg c.addrStr s bufs ss t)
    (P : List (List UInt8) → List Send → Client → Prop) (hstart : P [] [] c)
    (hflush : ∀ bufs ss d out buf udp, P bufs ss d → d.fixed = c.fixed → (∀ a off n, (out a off n).isSome = true) →
      (d.udp.flag = true → udp = true) → P (bufs ++ [buf]) (ss ++ (clientSends cfg out buf udp buf.length 0 d).2)
        (clientSends cfg out buf udp buf.length 0 d).1) :
    t.Inv cfg ∧ ∃ d ∈ t.table.live, d.fixed = c.fixed ∧ P bufs ss d := by
  induction hrun with
  | start => exact ⟨hs, c, hc, rfl, hstart⟩
  | @flush bufs ss t u out udpbuf buf _ hout hstep ih =>
    obtain ⟨ht, d, hd, hfixed, hP⟩ := ih
    have haddr := Client.addrStr_eq_of_fixed hfixed
    refine ⟨ht.step hstep, ?_⟩
    rw [Control.step, Option.ite_none_left_eq_some, Option.some_inj, Prod.mk.injEq] at hstep
    obtain ⟨-, rfl, -⟩ := hstep
    obtain ⟨-, hlive, hblocks⟩ := flushLoop_eq_flushList cfg out buf buf.length 0 udpbuf ht.counted
    obtain ⟨hmem, hsends⟩ := flushList_client cfg buf hout buf.length 0 ht.distinct hd rfl
    rw [flushWithShstack, hblocks, ← haddr, hsends]
    dsimp only
    rw [hlive]
    refine ⟨_, hmem, (clientSends_fixed _ _ _).trans hfixed, hflush _ _ _ _ _ _ hP hfixed hout ?_⟩
    intro hflag
    have hpos : 0 < udpCount t.table.live := List.countP_pos_iff.2 ⟨d, hd, hflag⟩
    exact decide_eq_true hpos.ne'
  | @other bufs ss t u i resp _ hi hstep ha ih =>
    obtain ⟨ht, d, hd, hfixed, hP⟩ := ih
    rw [← Client.addrStr_eq_of_fixed hfixed] at ha
    exact ⟨ht.step hstep, d, entry_step ht hstep hi hd ha, hfixed, hP⟩

/-- The sends carry what is flushed, and are sends to the client. -/
def Carried (c : Client) (bufs : List (List UInt8)) (ss : List Send) : Prop :=
  (ss.map Send.payload).flatten = bufs.flatten ∧
    ∀ x ∈ ss, ∃ (out : Outcomes) (d : Client) (off : Nat) (data : List UInt8),
      (∀ a off n, (out a off n).isSome = true) ∧ d.fixed = c.fixed ∧ x = sendClient out off data data d

theorem Carried.flush {c d : Client} {bufs : List (List UInt8)} {ss : List Send} (h : Carried c bufs ss)
    (hfixed : d.fixed = c.fixed) (hout : ∀ a off n, (out a off n).isSome = true) :
    Carried c (bufs ++ [buf]) (ss ++ (clientSends cfg out buf udp buf.length 0 d).2) := by
  refine ⟨?_, ?_⟩
  · rw [List.map_append, List.flatten_append, h.1, flatten_payload_clientSends _ _ _ (Nat.sub_le _ _), List.drop_zero,
      List.flatten_append, List.flatten_singleton]
  · intro x hx
    rcases List.mem_append.1 hx with hx | hx
    · exact h.2 x hx
    · obtain ⟨e, off, data, he, rfl⟩ := mem_clientSends hx
      exact ⟨out, e, off, data, hout, he.trans hfixed, rfl⟩

theorem LogStream.carried {s t : Control} {bufs : List (List UInt8)} {ss : List Send} {c : Client} (hs : s.Inv cfg)
    (hc : c ∈ s.table.live) (hrun : LogStream cfg c.addrStr s bufs ss t) : Carried c bufs ss := by
  obtain ⟨-, d, -, -, h⟩ := hrun.follow hs hc (fun bufs ss _ => Carried c bufs ss) ⟨rfl, List.forall_mem_nil _⟩
    fun bufs ss d out buf udp h hfixed hout _ => h.flush hfixed hout
  exact h

/-- The entry that the last section of `ctl_sub` has added. -/
theorem entry_of_inserted {s t : Control} {hd : Option Int} {connected isUdp : Bool} {logChd : Int} {addr : IpAddr}
    (hs : s.Inv cfg) (hpc : s.pc = .insert logChd isUdp addr) (hstep : s.step cfg (.go hd connected) = some (t, some .ok)) :
    ∃ c ∈ t.table.live, c.addrStr = pkIpAddr2str addr ∧ c.udp.flag = isUdp ∧ (isUdp = true → c.udp.packCnt = 0) := by
  cases Control.step_cases hstep with
  | inserted hpc' hfree =>
    rw [hpc] at hpc'
    cases hpc'
    obtain ⟨hlt, rfl⟩ := hs.lt_of_free hfree
    obtain ⟨c, hlive, -, haddr, hflag, hudp⟩ := hs.counted.live_addClient hlt.ne logChd isUdp addr (pkIpAddr2str addr)
    refine ⟨c, ?_, haddr, hflag, ?_⟩
    · rw [hlive]
      exact List.mem_append_right _ (List.mem_singleton_self c)
    · intro h
      rw [hudp h]
  | removed hpc' =>
    rw [hpc] at hpc'
    cases hpc'
  | refused _ hstatus => exact absurd hstatus (by decide)

/-! ### TCP -/

/-- The bytes that the socket takes. -/
def Send.written (s : Send) : List UInt8 := s.packet.take (s.res.getD 0)

/-- **A TCP client gets what is flushed exactly where no write to it is short.** -/
theorem tcpStream_iff {s₀ s t : Control} {hd : Option Int} {connected : Bool} {logChd : Int} {addr : IpAddr}
    {bufs : List (List UInt8)} {ss : List Send} (hs₀ : (control cfg).Reachable s₀) (hpc : s₀.pc = .insert logChd false addr)
    (hsub : s₀.step cfg (.go hd connected) = some (s, some .ok)) (hrun : LogStream cfg (pkIpAddr2str addr) s bufs ss t)
    (hwrite : ∀ x ∈ ss, ∀ r, x.res = some r → 0 < r ∧ r ≤ x.packet.length) :
    (ss.map Send.written).flatten = bufs.flatten ↔ ∀ x ∈ ss, x.Whole := by
  have hinv₀ := Control.inv_of_reachable hs₀
  obtain ⟨c, hc, haddr, hflag, -⟩ := entry_of_inserted hinv₀ hpc hsub
  rw [← haddr] at hrun
  obtain ⟨hflat, hsends⟩ := hrun.carried (hinv₀.step hsub) hc
  have hpayload : ∀ x ∈ ss, x.payload = x.packet := by
    intro x hx
    obtain ⟨out, d, off, data, -, hfixed, rfl⟩ := hsends x hx
    have hd : d.udp.flag = false := by
      show d.fixed.udp.flag = false
      rw [hfixed]
      exact hflag
    rw [Send.payload, sendClient_client, hd]
    rfl
  rw [← hflat, List.map_congr_left hpayload]
  refine (flatten_map_take_iff Send.packet _ ss).trans (forall₂_congr fun x hx => ?_)
  obtain ⟨out, d, off, data, hout, -, rfl⟩ := hsends x hx
  obtain ⟨r, hr⟩ := Option.isSome_iff_exists.1 (hout d.addrStr off (sendClient out off data data d).packet.length)
  have hres : (sendClient out off data data d).res = some r := hr
  have hle := (hwrite _ hx r hres).2
  rw [Send.Whole, hres, Option.getD_some, Option.some_inj]
  omega

def localAddr : IpAddr := ⟨0x7f000001, 9⟩

/-- The first client is about to get its entry. -/
def inserting (isUdp : Bool) : Control := { emptyControl with pc := .insert 3 isUdp localAddr }

def inserted (isUdp : Bool) : Control := ⟨emptyControl.table.addClient 0 3 isUdp localAddr (pkIpAddr2str localAddr), .accept⟩

theorem inserting_tcp_reachable : (control oneClient).Reachable (inserting false) :=
  Control.reachable_run [localRequest ⟨Proto.tcp.bytes, 9, opSub⟩, .go none false, .go none false, .go (some 3) true]
    (.init emptyControl_init) rfl

/-- The flush of two bytes to a TCP client. -/
theorem flush_tcp (out : Outcomes) (hout : ∀ a off n, (out a off n).isSome = true) :
    LogStream oneClient (pkIpAddr2str localAddr) (inserted false) ([] ++ [[0x68, 0x69]])
      ([] ++ sendsTo (pkIpAddr2str localAddr) (flushWithShstack oneClient out [] [0x68, 0x69] (inserted false).table).2)
      { inserted false with table := (flushWithShstack oneClient out [] [0x68, 0x69] (inserted false).table).1 } :=
  .flush .start hout rfl

theorem tcpStream_wholeWrite : (([] ++ sendsTo (pkIpAddr2str localAddr) (flushWithShstack oneClient (fun _ _ n => some n) []
    [0x68, 0x69] (inserted false).table).2).map Send.written).flatten = [0x68, 0x69] :=
  (@tcpStream_iff oneClient (inserting false) _ _ none false _ _ _ _ inserting_tcp_reachable rfl rfl (flush_tcp _ fun _ _ _ => rfl)
    (by decide)).2 (by decide)

/-- The write takes one byte of the block of two, and the other one is never sent. -/
theorem not_tcpStream_shortWrite : ¬ ∀ cfg s₀ hd connected logChd addr s bufs ss t, (control cfg).Reachable s₀ →
    s₀.pc = .insert logChd false addr → s₀.step cfg (.go hd connected) = some (s, some .ok) →
    LogStream cfg (pkIpAddr2str addr) s bufs ss t → (∀ x ∈ ss, ∀ r, x.res = some r → 0 < r ∧ r ≤ x.packet.length) →
    (ss.map Send.written).flatten = bufs.flatten := by
  intro h
  have hflat := h oneClient (inserting false) none false 3 localAddr (inserted false) _ _ _ inserting_tcp_reachable rfl rfl
    (flush_tcp (fun _ _ _ => some 1) fun _ _ _ => rfl) (by decide)
  revert hflat
  decide

/-! ### UDP -/

/-- The UDP side of netlog.py: `udp_pack_cnt`, what is written to stdout and the numbers logged as out of order. -/
structure LogClient where
  udpPackCnt : Nat
  stdout : List UInt8
  outOfOrder : List Nat
  deriving DecidableEq, Repr

/-- `main_loop` on a datagram, of which `recvfrom` returns `RECV_MAX_SIZE` bytes at most; `none` where it raises an exception. -/
def LogClient.mainLoop (c : LogClient) (datagram : List UInt8) : Option LogClient :=
  match datagram.take recvMaxSize with
  | [] => none
  | b :: bs =>
    let cnt := b.toNat &&& 0x7f
    some
      { udpPackCnt := cnt
        stdout := c.stdout ++ bs
        outOfOrder := if cnt ≠ (c.udpPackCnt + 1) &&& 0x7f then c.outOfOrder ++ [c.udpPackCnt] else c.outOfOrder }

/-- The client before it subscribes. -/
def LogClient.start : LogClient := ⟨127, [], []⟩

/-- The next packet has the number that the receiver expects. -/
def InStep (l : LogClient) (c : Client) : Prop := c.udp.packCnt.toNat = (l.udpPackCnt + 1) &&& 0x7f

private theorem mainLoop_packet (out : Outcomes) (off : Nat) (data : List UInt8) {c : Client} {l : LogClient}
    (hflag : c.udp.flag = true) (hstep : InStep l c) :
    ∃ l', l.mainLoop (sendClient out off data data c).packet = some l' ∧ InStep l' c.sent ∧
      l'.stdout = l.stdout ++ data.take (recvMaxSize - 1) ∧ l'.outOfOrder = l.outOfOrder := by
  have hlt : c.udp.packCnt.toNat < 128 := c.udp.packCnt.isLt
  have hpacket : (sendClient out off data data c).packet = UInt8.ofBitVec (c.udp.packCnt.setWidth 8) :: data := by
    rw [sendClient, if_pos hflag, List.take_length]
  have hcnt : (UInt8.ofBitVec (c.udp.packCnt.setWidth 8)).toNat &&& 0x7f = c.udp.packCnt.toNat := by
    rw [UInt8.toNat_ofBitVec, BitVec.toNat_setWidth, Nat.and_two_pow_sub_one_eq_mod _ 7]
    omega
  refine ⟨⟨c.udp.packCnt.toNat, l.stdout ++ data.take (recvMaxSize - 1), l.outOfOrder⟩, ?_, ?_, rfl, rfl⟩
  · rw [hpacket, LogClient.mainLoop, show recvMaxSize = (recvMaxSize - 1) + 1 from rfl, List.take_succ_cons]
    dsimp only
    rw [hcnt, if_neg (not_not.2 (show c.udp.packCnt.toNat = (l.udpPackCnt + 1) &&& 0x7f from hstep))]
    rfl
  · rw [InStep, Client.sent, if_pos hflag, Nat.and_two_pow_sub_one_eq_mod _ 7]
    dsimp only
    rw [BitVec.toNat_add]
    rfl

variable (cfg out buf udp) in
/-- A receiver in step with the client writes what fits of every payload and logs nothing. -/
theorem foldlM_mainLoop_clientSends (fuel lo : Nat) {c : Client} {l : LogClient} (hflag : c.udp.flag = true) (hstep : InStep l c) :
    ∃ l', ((clientSends cfg out buf udp fuel lo c).2.map Send.packet).foldlM LogClient.mainLoop l = some l' ∧
      InStep l' (clientSends cfg out buf udp fuel lo c).1 ∧
      l'.stdout = l.stdout ++ ((clientSends cfg out buf udp fuel lo c).2.map fun x => x.payload.take (recvMaxSize - 1)).flatten ∧
      l'.outOfOrder = l.outOfOrder := by
  induction fuel generalizing lo c l with
  | zero => exact ⟨l, rfl, hstep, (List.append_nil _).symm, rfl⟩
  | succ fuel ih =>
    rw [clientSends]
    split
    · dsimp only
      generalize (if udp then min (buf.length - lo) cfg.bufSize else buf.length - lo) = size
      obtain ⟨l₁, hfirst, hstep₁, hstdout₁, horder₁⟩ := mainLoop_packet out lo ((buf.drop lo).take size) hflag hstep
      obtain ⟨l₂, hrest, hstep₂, hstdout₂, horder₂⟩ := ih (lo + size) (c.sent_flag.trans hflag) hstep₁
      refine ⟨l₂, ?_, hstep₂, ?_, horder₂.trans horder₁⟩
      · rw [List.map_cons, List.foldlM_cons, hfirst]
        exact hrest
      · rw [hstdout₂, hstdout₁, List.map_cons, List.flatten_cons, sendClient_payload, List.append_assoc]
    · exact ⟨l, rfl, hstep, (List.append_nil _).symm, rfl⟩

/-- The receiver has got the packets in order, and has all of them where none is too long. -/
def Received (cfg : Config) (bufs : List (List UInt8)) (ss : List Send) (d : Client) : Prop :=
  (∃ l, (ss.map Send.packet).foldlM LogClient.mainLoop LogClient.start = some l ∧ InStep l d ∧
      l.stdout = (ss.map fun x => x.payload.take (recvMaxSize - 1)).flatten ∧ l.outOfOrder = []) ∧
    ((∀ x ∈ ss, x.payload.length ≤ recvMaxSize - 1) ↔ ∀ buf ∈ bufs, min buf.length cfg.bufSize < recvMaxSize)

theorem Received.flush {bufs : List (List UInt8)} {ss : List Send} {d : Client} (h : Received cfg bufs ss d)
    (hd : d.udp.flag = true) : Received cfg (bufs ++ [buf]) (ss ++ (clientSends cfg out buf true buf.length 0 d).2)
      (clientSends cfg out buf true buf.length 0 d).1 := by
  obtain ⟨⟨l, hrecv, hstep, hstdout, horder⟩, hfit⟩ := h
  obtain ⟨l', hrecv', hstep', hstdout', horder'⟩ :=
    foldlM_mainLoop_clientSends cfg out buf true buf.length 0 hd hstep
  refine ⟨⟨l', ?_, hstep', ?_, horder'.trans horder⟩, ?_⟩
  · rw [List.map_append, List.foldlM_append, hrecv]
    exact hrecv'
  · rw [hstdout', hstdout, List.map_append, List.flatten_append]
  · have hpos : 0 < recvMaxSize := by decide
    rw [List.forall_mem_append, List.forall_mem_append, hfit, List.forall_mem_singleton,
      payload_length_clientSends buf.length 0 d _ (Nat.sub_le _ _), Nat.sub_zero]
    exact and_congr_right fun _ => (Nat.lt_iff_le_pred hpos).symm

/-- **A UDP client writes what is flushed exactly where no packet is longer than it receives.** -/
theorem udpStream_iff {s₀ s t : Control} {hd : Option Int} {connected : Bool} {logChd : Int} {addr : IpAddr}
    {bufs : List (List UInt8)} {ss : List Send} (hs₀ : (control cfg).Reachable s₀) (hpc : s₀.pc = .insert logChd true addr)
    (hsub : s₀.step cfg (.go hd connected) = some (s, some .ok)) (hrun : LogStream cfg (pkIpAddr2str addr) s bufs ss t) :
    (∃ l, (ss.map Send.packet).foldlM LogClient.mainLoop LogClient.start = some l ∧ l.stdout = bufs.flatten ∧
        l.outOfOrder = []) ↔
      ∀ buf ∈ bufs, min buf.length cfg.bufSize < recvMaxSize := by
  have hinv₀ := Control.inv_of_reachable hs₀
  have hinv := hinv₀.step hsub
  obtain ⟨c, hc, haddr, hflag, hcnt⟩ := entry_of_inserted hinv₀ hpc hsub
  rw [← haddr] at hrun
  have hflat := (hrun.carried hinv hc).1
  have hstart : Received cfg [] [] c := ⟨⟨LogClient.start, rfl, by rw [InStep, hcnt rfl]; rfl, rfl, rfl⟩, by simp⟩
  obtain ⟨-, d, -, -, ⟨l, hrecv, -, hstdout, horder⟩, hfit⟩ := hrun.follow hinv hc (Received cfg) hstart
    fun bufs ss d out buf udp h hfixed hout hudp => by
      have hd : d.udp.flag = true := by
        show d.fixed.udp.flag = true
        rw [hfixed]
        exact hflag
      rw [hudp hd]
      exact h.flush hd
  rw [← hfit, ← flatten_map_take_iff Send.payload (fun _ => recvMaxSize - 1) ss, ← hstdout, hflat, hrecv]
  constructor
  · intro h
    obtain ⟨l', hl', hstdout', -⟩ := h
    cases hl'
    exact hstdout'
  · exact fun h => ⟨l, rfl, h, horder⟩

theorem inserting_udp_reachable {cfg : Config} (hcfg : emptyControl.Init cfg) : (control cfg).Reachable (inserting true) := by
  refine Control.reachable_run [localRequest ⟨Proto.udp.bytes, 9, opSub⟩, .go none false, .go none false, .go (some 3) false]
    (.init hcfg) ?_
  obtain ⟨maxClients, bufSize, hpos⟩ := cfg
  obtain rfl : 1 = maxClients := hcfg.1
  rfl

theorem flush_udp (cfg : Config) (buf : List UInt8) : LogStream cfg (pkIpAddr2str localAddr) (inserted true) ([] ++ [buf])
    ([] ++ sendsTo (pkIpAddr2str localAddr) (flushWithShstack cfg (fun _ _ n => some n) [] buf (inserted true).table).2)
    { inserted true with table := (flushWithShstack cfg (fun _ _ n => some n) [] buf (inserted true).table).1 } :=
  .flush .start (fun _ _ _ => rfl) rfl

theorem udpStream_sixBytes : ∃ l, (([] ++ sendsTo (pkIpAddr2str localAddr) (flushWithShstack oneClient (fun _ _ n => some n) []
    (List.replicate 6 0x61) (inserted true).table).2).map Send.packet).foldlM LogClient.mainLoop LogClient.start = some l ∧
      l.stdout = List.replicate 6 0x61 ∧ l.outOfOrder = [] :=
  (@udpStream_iff oneClient (inserting true) _ _ none false _ _ _ _ (inserting_udp_reachable emptyControl_init) rfl rfl (flush_udp oneClient _)).2
    (by decide)

def longPackets : Config := ⟨1, 1024, by decide⟩

/-- The last byte of a packet with 1024 of them and the counter is cut off. -/
theorem not_udpStream_longPacket : ¬ ∀ cfg s₀ hd connected logChd addr s bufs ss t, (control cfg).Reachable s₀ →
    s₀.pc = .insert logChd true addr → s₀.step cfg (.go hd connected) = some (s, some .ok) →
    LogStream cfg (pkIpAddr2str addr) s bufs ss t →
    ∃ l, (ss.map Send.packet).foldlM LogClient.mainLoop LogClient.start = some l ∧ l.stdout = bufs.flatten ∧
      l.outOfOrder = [] := by
  intro h
  obtain ⟨l, hrecv, hstdout, -⟩ := h longPackets (inserting true) none false 3 localAddr (inserted true) _ _ _
    (inserting_udp_reachable ⟨rfl, rfl, rfl, rfl⟩) rfl rfl (flush_udp longPackets (List.replicate 1024 0x61))
  have hlen := congrArg (Option.map fun l => l.stdout.length) hrecv
  rw [Option.map_some, hstdout] at hlen
  revert hlen
  decide +kernel

end Vedruino.Netlog
