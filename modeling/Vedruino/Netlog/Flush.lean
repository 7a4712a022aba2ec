import Vedruino.Netlog.Table

/-!
# Flushing stdout to the clients

`flush_with_shstack` cuts the flushed buffer into blocks and sends each block to the clients, entry by entry. A client whose send fails is deleted at once, under the index of the loop. The model is the code on the array; `pass` and `flushList` are what it does to the list of entries in use, and the lemmas connect the two. A deletion moves the next entry to the index just served, and the loop goes on with the index after it: this is the `skip` of `pass`.
-/

namespace Vedruino.Netlog

/-- What `pk_tcp_send` and `pk_udp_send` return for the block at an offset, sent to the client of an address string with so many bytes: `none` is a negative result. -/
abbrev Outcomes := List Char → Nat → Nat → Option Nat

/-- A call of `pk_tcp_send` or `pk_udp_send`: the entry it is made for, the offset of the block, the bytes handed over. -/
structure Send where
  client : Client
  off : Nat
  packet : List UInt8
  res : Option Nat
  deriving DecidableEq, Repr

/-- One round of the outer loop: the sends of a block, and whether it goes to the fallback `write`. -/
structure Block where
  off : Nat
  data : List UInt8
  sends : List Send
  fallback : Bool
  deriving DecidableEq, Repr

/-- The entry after a send: `pack_cnt++` for UDP. -/
def Client.sent (c : Client) : Client :=
  if c.udp.flag then { c with udp := { c.udp with packCnt := c.udp.packCnt + 1 } } else c

/-- One send. For UDP the packet is the counter and then the bytes of `flush_with_shstack_udpbuf`. -/
def sendClient (out : Outcomes) (off : Nat) (data udpbuf : List UInt8) (c : Client) : Send :=
  let packet := if c.udp.flag then UInt8.ofBitVec (c.udp.packCnt.setWidth 8) :: udpbuf.take data.length else data
  { client := c, off, packet, res := out c.addrStr off packet.length }

/-- The inner loop of `flush_with_shstack` from index `i`. -/
def sendAll (out : Outcomes) (off : Nat) (data udpbuf : List UInt8) : Nat → Nat → Table → Table × List Send
  | 0, _, t => (t, [])
  | fuel + 1, i, t =>
    if (i : Int) < t.clientsNum then
      match t.clients[i]? with
      | none => (t, [])
      | some c =>
        let s := sendClient out off data udpbuf c
        let t₁ := { t with clients := t.clients.set i c.sent }
        let t₂ := if s.res.isNone then t₁.delClient i else t₁
        let r := sendAll out off data udpbuf fuel (i + 1) t₂
        (r.1, s :: r.2)
    else (t, [])

def Table.blkSize (cfg : Config) (t : Table) (left : Nat) : Nat :=
  if t.udpClientsNum = 0 then left else min left cfg.bufSize

/-- The outer loop of `flush_with_shstack` from offset `sent`. -/
def flushLoop (cfg : Config) (out : Outcomes) (buf : List UInt8) :
    Nat → Nat → List UInt8 → Table → Table × List Block
  | 0, _, _, t => (t, [])
  | fuel + 1, sent, udpbuf, t =>
    if sent < buf.length then
      let size := t.blkSize cfg (buf.length - sent)
      let data := (buf.drop sent).take size
      let udpbuf₁ := if t.udpClientsNum = 0 then udpbuf else data ++ udpbuf.drop data.length
      let r := sendAll out sent data udpbuf₁ t.clientsNum.toNat 0 t
      let rest := flushLoop cfg out buf fuel (sent + size) udpbuf₁ r.1
      (rest.1, { off := sent, data, sends := r.2, fallback := r.1.clientsNum = 0 } :: rest.2)
    else (t, [])

/-- `flush_with_shstack`. Every block has at least one byte, so there are no more blocks than bytes. -/
def flushWithShstack (cfg : Config) (out : Outcomes) (udpbuf buf : List UInt8) (t : Table) : Table × List Block :=
  flushLoop cfg out buf buf.length 0 udpbuf t

/-! ### The flush on the entries in use -/

/-- The inner loop on the list of entries. With `skip` the first entry has moved to an index already served. -/
def pass (out : Outcomes) (off : Nat) (data : List UInt8) : Bool → List Client → List Client × List Send
  | _, [] => ([], [])
  | true, c :: cs =>
    let r := pass out off data false cs
    (c :: r.1, r.2)
  | false, c :: cs =>
    let s := sendClient out off data data c
    let r := pass out off data s.res.isNone cs
    (if s.res.isNone then r.1 else c.sent :: r.1, s :: r.2)

def blkSize (cfg : Config) (cs : List Client) (left : Nat) : Nat :=
  if udpCount cs = 0 then left else min left cfg.bufSize

def flushList (cfg : Config) (out : Outcomes) (buf : List UInt8) :
    Nat → Nat → List Client → List Client × List Block
  | 0, _, cs => (cs, [])
  | fuel + 1, sent, cs =>
    if sent < buf.length then
      let size := blkSize cfg cs (buf.length - sent)
      let data := (buf.drop sent).take size
      let r := pass out sent data false cs
      let rest := flushList cfg out buf fuel (sent + size) r.1
      (rest.1, { off := sent, data, sends := r.2, fallback := r.1 = [] } :: rest.2)
    else (cs, [])

@[simp] theorem Client.sent_addrStr (c : Client) : c.sent.addrStr = c.addrStr := by
  simp only [Client.sent]
  split <;> rfl

@[simp] theorem Client.sent_flag (c : Client) : c.sent.udp.flag = c.udp.flag := by
  simp only [Client.sent]
  split <;> simp_all

@[simp] theorem Client.sent_fixed (c : Client) : c.sent.fixed = c.fixed := by
  simp only [Client.sent, Client.fixed]
  split <;> rfl

theorem Client.addrStr_comp_sent : Client.addrStr ∘ Client.sent = Client.addrStr := by
  funext c
  exact c.sent_addrStr

theorem addrStr_sublist {cs ds : List Client} (h : (cs.map Client.fixed).Sublist (ds.map Client.fixed)) :
    (cs.map Client.addrStr).Sublist (ds.map Client.addrStr) := by
  have hmap := h.map Client.addrStr
  rwa [List.map_map, List.map_map] at hmap

theorem Client.addrStr_eq_of_fixed {c d : Client} (h : c.fixed = d.fixed) : c.addrStr = d.addrStr := by
  show c.fixed.addrStr = d.fixed.addrStr
  rw [h]

theorem Client.hd_eq_of_fixed {c d : Client} (h : c.fixed = d.fixed) : c.hd = d.hd := by
  show c.fixed.hd = d.fixed.hd
  rw [h]

theorem pass_sublist (out : Outcomes) (off : Nat) (data : List UInt8) (skip : Bool) (cs : List Client) :
    ((pass out off data skip cs).1.map Client.fixed).Sublist (cs.map Client.fixed) := by
  induction cs generalizing skip with
  | nil => simp [pass]
  | cons c cs ih =>
    cases skip with
    | true => simpa [pass] using ih false
    | false =>
      rw [pass]
      dsimp only
      split
      · exact (ih _).trans (List.sublist_cons_self _ _)
      · simpa using ih _

theorem mem_pass_sends {out : Outcomes} {off : Nat} {data : List UInt8} {skip : Bool} {cs : List Client} {s : Send}
    (h : s ∈ (pass out off data skip cs).2) : ∃ c ∈ cs, s = sendClient out off data data c := by
  induction cs generalizing skip with
  | nil => simp [pass] at h
  | cons c cs ih =>
    cases skip with
    | true =>
      obtain ⟨d, hd, hs⟩ := ih h
      exact ⟨d, List.mem_cons_of_mem _ hd, hs⟩
    | false =>
      rw [pass, List.mem_cons] at h
      rcases h with rfl | h
      · exact ⟨c, List.mem_cons_self, rfl⟩
      · obtain ⟨d, hd, hs⟩ := ih h
        exact ⟨d, List.mem_cons_of_mem _ hd, hs⟩

/-- Where nothing fails, everybody gets the block and is kept. -/
theorem pass_calm {out : Outcomes} (hout : ∀ a off n, (out a off n).isSome = true) (off : Nat) (data : List UInt8)
    (cs : List Client) :
    pass out off data false cs = (cs.map Client.sent, cs.map (sendClient out off data data)) := by
  induction cs with
  | nil => rfl
  | cons c cs ih =>
    have hsome : (sendClient out off data data c).res.isNone = false := by
      rw [Option.isNone_eq_false_iff]
      exact hout _ _ _
    rw [pass]
    simp only [hsome, ih, Bool.false_eq_true, if_false, List.map_cons]

theorem flushList_sublist (cfg : Config) (out : Outcomes) (buf : List UInt8) (fuel sent : Nat) (cs : List Client) :
    ((flushList cfg out buf fuel sent cs).1.map Client.fixed).Sublist (cs.map Client.fixed) := by
  induction fuel generalizing sent cs with
  | zero => exact List.Sublist.refl _
  | succ fuel ih =>
    rw [flushList]
    split
    · exact (ih _ _).trans (pass_sublist _ _ _ _ _)
    · exact List.Sublist.refl _

private theorem sendClient_congr (out : Outcomes) (off : Nat) {data udpbuf : List UInt8} {c : Client}
    (h : c.udp.flag = true → udpbuf.take data.length = data) :
    sendClient out off data udpbuf c = sendClient out off data data c := by
  simp only [sendClient]
  by_cases hflag : c.udp.flag = true
  · simp only [hflag, if_true, h hflag, List.take_length]
  · simp only [if_neg hflag]

private theorem sendAll_of_le (out : Outcomes) (off : Nat) (data udpbuf : List UInt8) (fuel : Nat) {i : Nat} {t : Table}
    (h : t.clientsNum ≤ i) : sendAll out off data udpbuf fuel i t = (t, []) := by
  cases fuel with
  | zero => rfl
  | succ fuel => rw [sendAll, if_neg (by omega)]

/-- The inner loop with the entries `served` behind it does to the rest what `pass` does. -/
theorem sendAll_eq_pass (cfg : Config) (out : Outcomes) (off : Nat) {data udpbuf : List UInt8} (fuel : Nat)
    {t : Table} (served rest : List Client) (h : t.Counted cfg) (hlive : t.live = served ++ rest)
    (hfuel : rest.length ≤ fuel) (hbuf : ∀ c ∈ rest, c.udp.flag = true → udpbuf.take data.length = data) :
    (sendAll out off data udpbuf fuel served.length t).1.Counted cfg ∧
      (sendAll out off data udpbuf fuel served.length t).1.live = served ++ (pass out off data false rest).1 ∧
      (sendAll out off data udpbuf fuel served.length t).2 = (pass out off data false rest).2 := by
  induction fuel generalizing t served rest with
  | zero =>
    obtain rfl := List.eq_nil_of_length_eq_zero (Nat.le_zero.1 hfuel)
    exact ⟨h, hlive, rfl⟩
  | succ fuel ih =>
    have hlen := h.length_live
    match rest, hlive, hfuel, hbuf with
    | [], hlive, _, _ =>
      rw [List.append_nil] at hlive
      rw [sendAll_of_le _ _ _ _ _ (by rw [← hlen, hlive])]
      exact ⟨h, by simp [hlive, pass], rfl⟩
    | c :: cs, hlive, hfuel, hbuf =>
      have hin : served.length < t.live.length := by simp [hlive]
      have hc : t.live[served.length]? = some c := by simp [hlive]
      have hset := h.set hc (Client.sent_flag c)
      have hset_live : Table.live { t with clients := t.clients.set served.length c.sent } = served ++ c.sent :: cs := by
        rw [Table.live_set, hlive, List.set_append_right _ _ le_rfl, Nat.sub_self, List.set_cons_zero]
      rw [sendAll, if_pos (by omega), Table.getElem?_live hin, hc]
      dsimp only
      rw [sendClient_congr out off (hbuf c List.mem_cons_self), pass]
      rw [List.length_cons] at hfuel
      by_cases hfail : (sendClient out off data data c).res.isNone = true
      · simp only [hfail, if_true]
        have hdel := hset.delClient (i := served.length) (by simp [hset_live])
        have hdel_live := hset.live_delClient (i := served.length) (by simp [hset_live])
        rw [hset_live, List.eraseIdx_append_of_length_le le_rfl, Nat.sub_self, List.eraseIdx_cons_zero] at hdel_live
        match cs, hfuel, hbuf, hdel_live with
        | [], _, _, hdel_live =>
          rw [List.append_nil] at hdel_live
          have hend := hdel.length_live
          rw [hdel_live] at hend
          rw [sendAll_of_le _ _ _ _ _ (by omega)]
          exact ⟨hdel, by simp [hdel_live, pass], by simp [pass]⟩
        | d :: ds, hfuel, hbuf, hdel_live =>
          -- `d` has taken the index of `c` and is passed over
          obtain ⟨hcounted, hrest, hsends⟩ := ih (served ++ [d]) ds hdel (by simpa using hdel_live)
            (by rw [List.length_cons] at hfuel; omega) (fun e he => hbuf e (by simp [he]))
          rw [List.length_append, List.length_singleton] at hcounted hrest hsends
          exact ⟨hcounted, by simpa [pass] using hrest, by simp [pass, hsends]⟩
      · simp only [hfail, if_false, Bool.false_eq_true]
        obtain ⟨hcounted, hrest, hsends⟩ := ih (served ++ [c.sent]) cs hset (by simpa using hset_live)
          (by omega) (fun e he => hbuf e (by simp [he]))
        rw [List.length_append, List.length_singleton] at hcounted hrest hsends
        exact ⟨hcounted, by simpa using hrest, by simp [hsends]⟩

theorem Table.Counted.blkSize_eq {cfg : Config} {t : Table} (h : t.Counted cfg) (left : Nat) :
    t.blkSize cfg left = Netlog.blkSize cfg t.live left := by
  rw [Table.blkSize, Netlog.blkSize, h.udp]
  by_cases hz : udpCount t.live = 0
  · rw [if_pos hz, if_pos (by omega)]
  · rw [if_neg hz, if_neg (by omega)]

/-- **The flush on the array is the flush on the list of entries in use.** -/
theorem flushLoop_eq_flushList (cfg : Config) (out : Outcomes) (buf : List UInt8) (fuel sent : Nat)
    (udpbuf : List UInt8) {t : Table} (h : t.Counted cfg) :
    (flushLoop cfg out buf fuel sent udpbuf t).1.Counted cfg ∧
      (flushLoop cfg out buf fuel sent udpbuf t).1.live = (flushList cfg out buf fuel sent t.live).1 ∧
      (flushLoop cfg out buf fuel sent udpbuf t).2 = (flushList cfg out buf fuel sent t.live).2 := by
  induction fuel generalizing sent udpbuf t with
  | zero => exact ⟨h, rfl, rfl⟩
  | succ fuel ih =>
    by_cases hsent : sent < buf.length
    · rw [flushLoop, flushList, if_pos hsent, if_pos hsent, h.blkSize_eq]
      dsimp only
      generalize hsize : blkSize cfg t.live (buf.length - sent) = size
      generalize hdata : (buf.drop sent).take size = data
      generalize hudp : (if t.udpClientsNum = 0 then udpbuf else data ++ udpbuf.drop data.length) = udpbuf₁
      have hbuf : ∀ c ∈ t.live, c.udp.flag = true → udpbuf₁.take data.length = data := by
        intro c hc hflag
        have hpos : 0 < udpCount t.live := List.countP_pos_iff.2 ⟨c, hc, hflag⟩
        rw [← hudp, if_neg (by rw [h.udp]; omega), List.take_left]
      obtain ⟨hcounted, hlive, hsends⟩ := sendAll_eq_pass cfg out sent t.clientsNum.toNat [] t.live h
        (List.nil_append _).symm (by rw [h.toNat_clientsNum]) hbuf
      rw [List.length_nil] at hcounted hlive hsends
      rw [List.nil_append] at hlive
      obtain ⟨hcounted', hlive', hblocks⟩ := ih (sent + size) udpbuf₁ hcounted
      have hempty : (sendAll out sent data udpbuf₁ t.clientsNum.toNat 0 t).1.clientsNum = 0 ↔
          (pass out sent data false t.live).1 = [] := by
        rw [← hlive, ← hcounted.length_live, ← List.length_eq_zero_iff]
        omega
      exact ⟨hcounted', by rw [hlive', hlive], by rw [hblocks, hlive, hsends]; simp only [hempty]⟩
    · rw [flushLoop, flushList, if_neg hsent, if_neg hsent]
      exact ⟨h, rfl, rfl⟩

end Vedruino.Netlog
