import Mathlib.Data.List.Induction
import Vedruino.Netlog.Flush

/-!
# What a flush delivers

A client is served by a flush when its sends carry the buffer from the first byte on without a gap, and it got all of it or was removed after a failed send of its own. A deletion in the middle of the table passes the next client over, so this holds exactly when, block by block, only the last client of the table fails. A block can be lost altogether when the clients passed over keep the table from being empty.
-/

namespace Vedruino.Netlog

/-- Every send takes the whole block or fails. -/
def wholeOrFail (accept : List Char → Nat → Bool) : Outcomes :=
  fun a off n => if accept a off then some n else none

/-- The bytes of the buffer in a packet: without the counter for UDP. -/
def Send.payload (s : Send) : List UInt8 := if s.client.udp.flag then s.packet.tail else s.packet

def Send.Whole (s : Send) : Prop := s.res = some s.packet.length

instance (s : Send) : Decidable s.Whole := inferInstanceAs (Decidable (_ = _))

/-- The sends made to the client of an address string, in order. -/
def sendsTo (a : List Char) (bs : List Block) : List Send :=
  bs.flatMap fun b => b.sends.filter fun s => s.client.addrStr = a

/-- The sends carry the bytes of the buffer from `lo` up to `hi`, each once and in order. -/
def Covers (buf : List UInt8) : Nat → Nat → List Send → Prop
  | lo, hi, [] => lo = hi
  | lo, hi, s :: ss =>
    s.off = lo ∧ s.payload = (buf.drop lo).take s.payload.length ∧ Covers buf (lo + s.payload.length) hi ss

/-- From offset `lo` on, the client never misses or repeats a block, and it got the rest of the buffer or was removed after its own send failed. -/
def ServedFrom (buf : List UInt8) (lo : Nat) (r : List Client × List Block) (a : List Char) : Prop :=
  (∃ hi, Covers buf lo hi (sendsTo a r.2)) ∧
    ((Covers buf lo buf.length (sendsTo a r.2) ∧ ∀ s ∈ sendsTo a r.2, s.Whole) ∨
      (a ∉ r.1.map Client.addrStr ∧ ∃ s ∈ sendsTo a r.2, s.res = none))

def FanOutComplete (cfg : Config) (out : Outcomes) (udpbuf buf : List UInt8) (t : Table) : Prop :=
  ∀ c ∈ t.live, ServedFrom buf 0 ((flushWithShstack cfg out udpbuf buf t).1.live,
    (flushWithShstack cfg out udpbuf buf t).2) c.addrStr

/-- What the block sizes and the sends depend on in an entry: its address string and whether it is UDP. -/
def Client.sub (c : Client) : List Char × Bool := (c.addrStr, c.udp.flag)

def subBlkSize (cfg : Config) (ks : List (List Char × Bool)) (left : Nat) : Nat :=
  if ks.countP (·.2) = 0 then left else min left cfg.bufSize

/-- At every block all clients take it, except possibly the last one of the table, which is then gone. -/
inductive OnlyLastFails (cfg : Config) (accept : List Char → Nat → Bool) (n : Nat) :
    List (List Char × Bool) → Nat → Prop
  | done {ks sent} : n ≤ sent → OnlyLastFails cfg accept n ks sent
  | block {ks sent} : sent < n → (∀ k ∈ ks.dropLast, accept k.1 sent = true) →
      OnlyLastFails cfg accept n (ks.filter fun k => accept k.1 sent) (sent + subBlkSize cfg ks (n - sent)) →
      OnlyLastFails cfg accept n ks sent

/-! ### One block -/

theorem blkSize_eq_subBlkSize (cfg : Config) (cs : List Client) (left : Nat) :
    blkSize cfg cs left = subBlkSize cfg (cs.map Client.sub) left := by
  rw [blkSize, subBlkSize, udpCount, List.countP_map]
  rfl

theorem blkSize_le (cfg : Config) (cs : List Client) (left : Nat) : blkSize cfg cs left ≤ left := by
  rw [blkSize]
  split
  · exact le_rfl
  · exact Nat.min_le_left _ _

theorem blkSize_pos (cfg : Config) (cs : List Client) {left : Nat} (h : 0 < left) : 0 < blkSize cfg cs left := by
  rw [blkSize]
  split
  · exact h
  · exact lt_min h cfg.bufSize_pos

@[simp] theorem sendClient_client (out : Outcomes) (off : Nat) (data : List UInt8) (c : Client) :
    (sendClient out off data data c).client = c := rfl

@[simp] theorem sendClient_payload (out : Outcomes) (off : Nat) (data : List UInt8) (c : Client) :
    (sendClient out off data data c).payload = data := by
  simp only [sendClient, Send.payload, List.take_length]
  split <;> rfl

theorem sendClient_wholeOrFail (accept : List Char → Nat → Bool) (off : Nat) (data : List UInt8) (c : Client) :
    (sendClient (wholeOrFail accept) off data data c).res =
      if accept c.addrStr off then some (sendClient (wholeOrFail accept) off data data c).packet.length else none := rfl

theorem sendClient_isNone (accept : List Char → Nat → Bool) (off : Nat) (data : List UInt8) (c : Client) :
    (sendClient (wholeOrFail accept) off data data c).res.isNone = !accept c.addrStr off := by
  rw [sendClient_wholeOrFail]
  cases accept c.addrStr off <;> rfl

private theorem pass_of_dropLast (accept : List Char → Nat → Bool) (off : Nat) (data : List UInt8) {cs : List Client}
    (h : ∀ c ∈ cs.dropLast, accept c.addrStr off = true) :
    pass (wholeOrFail accept) off data false cs =
      ((cs.filter fun c => accept c.addrStr off).map Client.sent,
        cs.map (sendClient (wholeOrFail accept) off data data)) := by
  induction cs with
  | nil => rfl
  | cons c cs ih =>
    match cs, h, ih with
    | [], _, _ =>
      rw [pass, sendClient_isNone]
      cases hc : accept c.addrStr off <;> simp [pass, hc]
    | d :: ds, h, ih =>
      have hc : accept c.addrStr off = true := h c (by simp)
      rw [pass, sendClient_isNone, hc]
      simp only [Bool.not_true, Bool.false_eq_true, if_false]
      rw [ih fun e he => h e (by rw [List.dropLast_cons_cons]; exact List.mem_cons_of_mem _ he)]
      simp [hc]

private theorem exists_passed_over (accept : List Char → Nat → Bool) (off : Nat) (data : List UInt8) {cs : List Client}
    (hnodup : (cs.map Client.addrStr).Nodup) (h : ¬ ∀ c ∈ cs.dropLast, accept c.addrStr off = true) :
    ∃ d ∈ cs, ∀ s ∈ (pass (wholeOrFail accept) off data false cs).2, s.client.addrStr ≠ d.addrStr := by
  induction cs with
  | nil => simp at h
  | cons c cs ih =>
    match cs, hnodup, h, ih with
    | [], _, h, _ => simp at h
    | d :: ds, hnodup, h, ih =>
      rw [List.map_cons, List.nodup_cons] at hnodup
      rw [pass, sendClient_isNone]
      cases hc : accept c.addrStr off with
      | true =>
        have hrest : ¬ ∀ e ∈ (d :: ds).dropLast, accept e.addrStr off = true := by
          intro hall
          apply h
          intro e he
          rw [List.dropLast_cons_cons, List.mem_cons] at he
          rcases he with rfl | he
          · exact hc
          · exact hall e he
        obtain ⟨e, he, hunsent⟩ := ih hnodup.2 hrest
        refine ⟨e, List.mem_cons_of_mem _ he, ?_⟩
        intro s hs
        rw [List.mem_cons] at hs
        rcases hs with rfl | hs
        · intro heq
          exact hnodup.1 (List.mem_map.2 ⟨e, he, heq.symm⟩)
        · exact hunsent s hs
      | false =>
        refine ⟨d, by simp, ?_⟩
        intro s hs
        rw [List.mem_cons] at hs
        rcases hs with rfl | hs
        · intro heq
          exact hnodup.1 (by simp [show c.addrStr = d.addrStr from heq])
        · rw [Bool.not_false, pass] at hs
          obtain ⟨e, he, rfl⟩ := mem_pass_sends hs
          intro heq
          rw [List.map_cons, List.nodup_cons] at hnodup
          exact hnodup.2.1 (List.mem_map.2 ⟨e, he, heq⟩)

theorem filter_addrStr_eq {cs : List Client} {c : Client} (hnodup : (cs.map Client.addrStr).Nodup) (hc : c ∈ cs) :
    cs.filter (fun d => d.addrStr = c.addrStr) = [c] := by
  induction cs with
  | nil => cases hc
  | cons d ds ih =>
    rw [List.map_cons, List.nodup_cons] at hnodup
    rcases List.mem_cons.1 hc with rfl | hc
    · have hnone : ds.filter (fun d => d.addrStr = c.addrStr) = [] := by
        rw [List.filter_eq_nil_iff]
        intro e he heq
        exact hnodup.1 (List.mem_map.2 ⟨e, he, of_decide_eq_true heq⟩)
      rw [List.filter_cons_of_pos (by simp), hnone]
    · have hne : d.addrStr ≠ c.addrStr := fun heq => hnodup.1 (List.mem_map.2 ⟨c, hc, heq.symm⟩)
      rw [List.filter_cons_of_neg (by simpa using hne), ih hnodup.2 hc]

/-! ### The blocks after one another -/

theorem sendsTo_cons (a : List Char) (b : Block) (bs : List Block) :
    sendsTo a (b :: bs) = b.sends.filter (fun s => s.client.addrStr = a) ++ sendsTo a bs := by
  simp [sendsTo]

theorem mem_sendsTo_flushList {cfg : Config} {out : Outcomes} {buf : List UInt8} {fuel lo : Nat} {cs : List Client}
    {a : List Char} {s : Send} (h : s ∈ sendsTo a (flushList cfg out buf fuel lo cs).2) :
    lo ≤ s.off ∧ a ∈ cs.map Client.addrStr := by
  induction fuel generalizing lo cs with
  | zero => simp [flushList, sendsTo] at h
  | succ fuel ih =>
    rw [flushList] at h
    split at h
    · rw [sendsTo_cons, List.mem_append] at h
      rcases h with h | h
      · obtain ⟨hs, ha⟩ := List.mem_filter.1 h
        obtain ⟨c, hc, rfl⟩ := mem_pass_sends hs
        exact ⟨le_rfl, List.mem_map.2 ⟨c, hc, of_decide_eq_true ha⟩⟩
      · obtain ⟨hoff, ha⟩ := ih h
        refine ⟨by omega, ?_⟩
        exact (addrStr_sublist (pass_sublist _ _ _ _ _)).mem ha
    · simp [sendsTo] at h

private theorem servedFrom_cons {buf : List UInt8} {lo size : Nat} {final : List Client} {b : Block} {bs : List Block}
    {a : List Char} {s : Send} (hb : b.sends.filter (fun s => s.client.addrStr = a) = [s]) (hoff : s.off = lo)
    (hpayload : s.payload = (buf.drop lo).take size) (hsize : s.payload.length = size) (hwhole : s.Whole) :
    ServedFrom buf lo (final, b :: bs) a ↔ ServedFrom buf (lo + size) (final, bs) a := by
  have hcovers : ∀ hi, Covers buf lo hi (sendsTo a (b :: bs)) ↔ Covers buf (lo + size) hi (sendsTo a bs) := by
    intro hi
    rw [sendsTo_cons, hb, List.singleton_append, Covers, hsize]
    exact ⟨fun h => h.2.2, fun h => ⟨hoff, hpayload, h⟩⟩
  have hsome : s.res ≠ none := by rw [hwhole]; exact Option.some_ne_none _
  simp only [ServedFrom, hcovers]
  simp only [sendsTo_cons, hb, List.singleton_append, List.mem_cons, forall_eq_or_imp, exists_eq_or_imp, hwhole,
    hsome, true_and, false_or]

theorem data_length (cfg : Config) (buf : List UInt8) (lo : Nat) (cs : List Client) :
    ((buf.drop lo).take (blkSize cfg cs (buf.length - lo))).length = blkSize cfg cs (buf.length - lo) := by
  rw [List.length_take, List.length_drop]
  exact Nat.min_eq_left (blkSize_le _ _ _)

private theorem servedFrom_end {buf : List UInt8} {final : List Client} {a : List Char} :
    ServedFrom buf buf.length (final, []) a :=
  ⟨⟨_, rfl⟩, .inl ⟨rfl, by simp [sendsTo]⟩⟩

private theorem not_servedFrom_of_unsent {buf : List UInt8} {lo : Nat} {final : List Client} {b : Block} {bs : List Block}
    {a : List Char} (hlt : lo < buf.length) (hb : ∀ s ∈ b.sends, s.client.addrStr ≠ a)
    (hlater : ∀ s ∈ sendsTo a bs, lo < s.off) : ¬ ServedFrom buf lo (final, b :: bs) a := by
  intro h
  obtain ⟨⟨hi, hcovers⟩, hserved⟩ := h
  have hnone : b.sends.filter (fun s => s.client.addrStr = a) = [] := by
    rw [List.filter_eq_nil_iff]
    intro s hs heq
    exact hb s hs (of_decide_eq_true heq)
  simp only [sendsTo_cons, hnone, List.nil_append] at hcovers hserved
  match hS : sendsTo a bs with
  | [] =>
    rw [hS] at hserved
    rcases hserved with ⟨hall, -⟩ | ⟨-, s, hs, -⟩
    · exact absurd hall hlt.ne
    · cases hs
  | s :: ss =>
    rw [hS] at hcovers
    have := hlater s (by rw [hS]; exact List.mem_cons_self)
    have := hcovers.1
    omega

private theorem servedFrom_of_failed {buf : List UInt8} {lo : Nat} {final : List Client} {b : Block} {bs : List Block}
    {a : List Char} {s : Send} (hb : b.sends.filter (fun s => s.client.addrStr = a) = [s]) (hoff : s.off = lo)
    (hpayload : s.payload = (buf.drop lo).take s.payload.length) (hfail : s.res = none)
    (hlater : sendsTo a bs = []) (hgone : a ∉ final.map Client.addrStr) : ServedFrom buf lo (final, b :: bs) a := by
  have hsends : sendsTo a (b :: bs) = [s] := by rw [sendsTo_cons, hb, hlater, List.append_nil]
  refine ⟨⟨lo + s.payload.length, ?_⟩, .inr ⟨hgone, s, ?_, hfail⟩⟩
  · rw [hsends]
    exact ⟨hoff, hpayload, rfl⟩
  · rw [hsends]
    exact List.mem_singleton_self s

private theorem addrStr_mem_of_flushList {cfg : Config} {out : Outcomes} {buf : List UInt8} {fuel lo : Nat} {cs : List Client}
    {a : List Char} (h : a ∈ (flushList cfg out buf fuel lo cs).1.map Client.addrStr) : a ∈ cs.map Client.addrStr := by
  exact (addrStr_sublist (flushList_sublist cfg out buf fuel lo cs)).mem h

private theorem map_sub_filter_sent (accept : List Char → Nat → Bool) (lo : Nat) (cs : List Client) :
    ((cs.filter fun c => accept c.addrStr lo).map Client.sent).map Client.sub =
      (cs.map Client.sub).filter fun k => accept k.1 lo := by
  rw [List.filter_map, List.map_map]
  apply List.map_congr_left
  intro c _
  simp [Client.sub]

theorem onlyLastFails_iff {cfg : Config} {accept : List Char → Nat → Bool} {n lo : Nat} {ks : List (List Char × Bool)}
    (hlt : lo < n) : OnlyLastFails cfg accept n ks lo ↔ (∀ k ∈ ks.dropLast, accept k.1 lo = true) ∧
      OnlyLastFails cfg accept n (ks.filter fun k => accept k.1 lo) (lo + subBlkSize cfg ks (n - lo)) := by
  constructor
  · intro h
    cases h with
    | done hle => omega
    | block _ hdrop hnext => exact ⟨hdrop, hnext⟩
  · intro h
    exact .block hlt h.1 h.2

theorem filter_sends_eq (out : Outcomes) (lo : Nat) (data : List UInt8) {cs : List Client} {c : Client}
    (hnodup : (cs.map Client.addrStr).Nodup) (hc : c ∈ cs) :
    (cs.map (sendClient out lo data data)).filter (fun s => s.client.addrStr = c.addrStr) =
      [sendClient out lo data data c] := by
  rw [List.filter_map]
  exact congrArg (List.map _) (filter_addrStr_eq hnodup hc)

/-- Where every client is sent the block, all are served exactly when those that took it are served from the next one on: the others are removed. -/
theorem servedFrom_block_iff {cfg : Config} {accept : List Char → Nat → Bool} {buf : List UInt8} {lo size fuel : Nat}
    {cs : List Client} {b : Block} (hnodup : (cs.map Client.addrStr).Nodup)
    (hsize : ((buf.drop lo).take size).length = size)
    (hb : b.sends = cs.map (sendClient (wholeOrFail accept) lo ((buf.drop lo).take size) ((buf.drop lo).take size)))
    {left : List Client} (hleft : left = (cs.filter fun c => accept c.addrStr lo).map Client.sent)
    {rest : List Client × List Block} (hrest : rest = flushList cfg (wholeOrFail accept) buf fuel (lo + size) left) :
    (∀ c ∈ cs, ServedFrom buf lo (rest.1, b :: rest.2) c.addrStr) ↔
      ∀ c ∈ left, ServedFrom buf (lo + size) rest c.addrStr := by
  have hsent : ∀ c ∈ cs, b.sends.filter (fun s => s.client.addrStr = c.addrStr) =
      [sendClient (wholeOrFail accept) lo ((buf.drop lo).take size) ((buf.drop lo).take size) c] := by
    intro c hc
    rw [hb]
    exact filter_sends_eq _ _ _ hnodup hc
  have htook : ∀ c ∈ cs, accept c.addrStr lo = true →
      (ServedFrom buf lo (rest.1, b :: rest.2) c.addrStr ↔ ServedFrom buf (lo + size) rest c.addrStr) := by
    intro c hc htake
    refine servedFrom_cons (hsent c hc) rfl (by simp) (by simpa using hsize) ?_
    rw [Send.Whole, sendClient_wholeOrFail, if_pos htake]
  constructor
  · intro hall c' hc'
    rw [hleft] at hc'
    obtain ⟨c, hmem, rfl⟩ := List.mem_map.1 hc'
    obtain ⟨hc, htake⟩ := List.mem_filter.1 hmem
    rw [Client.sent_addrStr]
    exact (htook c hc htake).1 (hall c hc)
  · intro hall c hc
    cases htake : accept c.addrStr lo with
    | true =>
      have hmem : c.sent ∈ left := hleft ▸ List.mem_map_of_mem (List.mem_filter.2 ⟨hc, htake⟩)
      have hserved := hall _ hmem
      rw [Client.sent_addrStr] at hserved
      exact (htook c hc htake).2 hserved
    | false =>
      have hout : c.addrStr ∉ left.map Client.addrStr := by
        intro hmem
        rw [hleft, List.map_map, Client.addrStr_comp_sent] at hmem
        obtain ⟨d, hd, heq⟩ := List.mem_map.1 hmem
        have htake' := (List.mem_filter.1 hd).2
        rw [heq, htake] at htake'
        cases htake'
      refine servedFrom_of_failed (hsent c hc) rfl (by simp [hsize]) ?_ ?_ ?_
      · rw [sendClient_wholeOrFail, htake]
        rfl
      · rw [List.eq_nil_iff_forall_not_mem]
        intro s hs
        rw [hrest] at hs
        exact hout (mem_sendsTo_flushList hs).2
      · intro hmem
        rw [hrest] at hmem
        exact hout (addrStr_mem_of_flushList hmem)

theorem flushList_served_iff (cfg : Config) (accept : List Char → Nat → Bool) (buf : List UInt8) (fuel lo : Nat)
    (cs : List Client) (hfuel : buf.length - lo ≤ fuel) (hlo : lo ≤ buf.length)
    (hnodup : (cs.map Client.addrStr).Nodup) :
    (∀ c ∈ cs, ServedFrom buf lo (flushList cfg (wholeOrFail accept) buf fuel lo cs) c.addrStr) ↔
      OnlyLastFails cfg accept buf.length (cs.map Client.sub) lo := by
  induction fuel generalizing lo cs with
  | zero =>
    obtain rfl : lo = buf.length := by omega
    exact ⟨fun _ => .done le_rfl, fun _ c _ => servedFrom_end⟩
  | succ fuel ih =>
    by_cases hlt : lo < buf.length
    · rw [flushList, if_pos hlt, onlyLastFails_iff hlt, ← blkSize_eq_subBlkSize, ← List.map_dropLast]
      dsimp only
      have hdata := data_length cfg buf lo cs
      have hpos := blkSize_pos cfg cs (Nat.sub_pos_of_lt hlt)
      have hle := blkSize_le cfg cs (buf.length - lo)
      generalize blkSize cfg cs (buf.length - lo) = size at *
      rw [List.forall_mem_map]
      by_cases hlast : ∀ c ∈ cs.dropLast, accept c.addrStr lo = true
      · have hnodup' : (((cs.filter fun c => accept c.addrStr lo).map Client.sent).map Client.addrStr).Nodup := by
          rw [List.map_map, Client.addrStr_comp_sent]
          exact hnodup.sublist (List.filter_sublist.map _)
        rw [pass_of_dropLast accept lo _ hlast, servedFrom_block_iff hnodup hdata rfl rfl rfl,
          ih _ _ (by omega) (by omega) hnodup', map_sub_filter_sent]
        exact (and_iff_right hlast).symm
      · obtain ⟨d, hd, hunsent⟩ := exists_passed_over accept lo ((buf.drop lo).take size) hnodup hlast
        refine iff_of_false (fun hall => ?_) fun h => hlast h.1
        refine absurd (hall d hd) (not_servedFrom_of_unsent hlt hunsent fun s hs => ?_)
        have := (mem_sendsTo_flushList hs).1
        omega
    · obtain rfl : lo = buf.length := by omega
      rw [flushList, if_neg hlt]
      exact ⟨fun _ => .done le_rfl, fun _ c _ => servedFrom_end⟩

/-- **The fan-out is complete exactly when only the last client of the table ever fails.** -/
theorem fanOutComplete_iff (cfg : Config) (accept : List Char → Nat → Bool) (udpbuf buf : List UInt8) (t : Table)
    (ht : t.Counted cfg) (hdistinct : t.Distinct) :
    FanOutComplete cfg (wholeOrFail accept) udpbuf buf t ↔
      OnlyLastFails cfg accept buf.length (t.live.map Client.sub) 0 := by
  obtain ⟨-, hlive, hblocks⟩ := flushLoop_eq_flushList cfg (wholeOrFail accept) buf buf.length 0 udpbuf ht
  rw [FanOutComplete, flushWithShstack, hlive, hblocks]
  exact flushList_served_iff cfg accept buf buf.length 0 t.live (by omega) (by omega) hdistinct

def twoClients : Table :=
  { clients := [⟨1, ['a'], ⟨false, 0, 0, 0⟩⟩, ⟨2, ['b'], ⟨false, 0, 0, 0⟩⟩], clientsNum := 2, udpClientsNum := 0 }

def smallConfig : Config := ⟨2, 4, Nat.succ_pos 3⟩

theorem twoClients_counted : twoClients.Counted smallConfig := ⟨by decide, by decide, by decide, by decide⟩

theorem fanOutComplete_lastFails :
    FanOutComplete smallConfig (wholeOrFail fun a _ => a = ['a']) [] [0x68, 0x69] twoClients := by
  refine (fanOutComplete_iff _ _ _ _ _ twoClients_counted (by decide)).2 ?_
  exact .block (by decide) (by decide) (.done (by decide))

/-- The first client fails: the second one stays in the table and is sent nothing. -/
theorem not_fanOutComplete_firstFails :
    ¬ ∀ cfg accept udpbuf buf t, t.Counted cfg → t.Distinct →
      FanOutComplete cfg (wholeOrFail accept) udpbuf buf t := by
  intro h
  have hserved := h smallConfig (fun a _ => a = ['b']) [] [0x68, 0x69] twoClients twoClients_counted (by decide)
    ⟨2, ['b'], ⟨false, 0, 0, 0⟩⟩ (by decide)
  have hsends : sendsTo ['b'] (flushWithShstack smallConfig (wholeOrFail fun a _ => a = ['b']) [] [0x68, 0x69]
    twoClients).2 = [] := by decide
  rcases hserved.2 with ⟨hall, -⟩ | ⟨-, s, hs, -⟩
  · rw [hsends] at hall
    simp [Covers] at hall
  · rw [hsends] at hs
    cases hs

/-! ### Lost blocks -/

/-- The entries the inner loop tries; `skip` as in `pass`. -/
def tried {α : Type*} (fails : α → Bool) : Bool → List α → List α
  | _, [] => []
  | true, _ :: ks => tried fails false ks
  | false, k :: ks => k :: tried fails (fails k) ks

def kept {α : Type*} (fails : α → Bool) : Bool → List α → List α
  | _, [] => []
  | true, k :: ks => k :: kept fails false ks
  | false, k :: ks => if fails k then kept fails true ks else k :: kept fails false ks

def packetLen (size : Nat) (k : List Char × Bool) : Nat := if k.2 then size + 1 else size

def subFails (out : Outcomes) (off size : Nat) (k : List Char × Bool) : Bool :=
  (out k.1 off (packetLen size k)).isNone

/-- Which results of a send of so many bytes count as accepting them. -/
abbrev Accepts := Nat → Nat → Bool

def subAccepts (acc : Accepts) (out : Outcomes) (off size : Nat) (k : List Char × Bool) : Bool :=
  (out k.1 off (packetLen size k)).any fun r => acc r (packetLen size k)

/-- The number of failing entries in a row at the end of a list. -/
def failsBefore {α : Type*} (fails : α → Bool) (ks : List α) : Nat := (ks.reverse.takeWhile fails).length

/-- The entry has an even number of failing ones right before it. -/
def AfterEven {α : Type*} (fails : α → Bool) (ks : List α) (k : α) : Prop :=
  ∃ ks₁ ks₂, ks = ks₁ ++ k :: ks₂ ∧ failsBefore fails ks₁ % 2 = 0

/-- A client accepts the block and has an even number of failing ones right before it, or there is at most one client and it fails. -/
def BlockTaken (acc : Accepts) (out : Outcomes) (off size : Nat) (ks : List (List Char × Bool)) : Prop :=
  (∃ k, AfterEven (subFails out off size) ks k ∧ subAccepts acc out off size k = true) ∨
    ks.length ≤ 1 ∧ ∀ k ∈ ks, subFails out off size k = true

/-- `BlockTaken` at every block, with the entries left by the blocks before it. -/
inductive EveryBlockTaken (acc : Accepts) (cfg : Config) (out : Outcomes) (n : Nat) :
    List (List Char × Bool) → Nat → Prop
  | done {ks sent} : n ≤ sent → EveryBlockTaken acc cfg out n ks sent
  | block {ks sent} : sent < n → BlockTaken acc out sent (subBlkSize cfg ks (n - sent)) ks →
      EveryBlockTaken acc cfg out n (kept (subFails out sent (subBlkSize cfg ks (n - sent))) false ks)
        (sent + subBlkSize cfg ks (n - sent)) →
      EveryBlockTaken acc cfg out n ks sent

def Send.accepted (acc : Accepts) (s : Send) : Bool := s.res.any fun r => acc r s.packet.length

/-- Every block is accepted by some client or goes to the fallback `write`. -/
def NoBlockLost (acc : Accepts) (cfg : Config) (out : Outcomes) (udpbuf buf : List UInt8) (t : Table) : Prop :=
  ∀ b ∈ (flushWithShstack cfg out udpbuf buf t).2, (∃ s ∈ b.sends, s.accepted acc = true) ∨ b.fallback = true

instance (acc : Accepts) (cfg : Config) (out : Outcomes) (udpbuf buf : List UInt8) (t : Table) :
    Decidable (NoBlockLost acc cfg out udpbuf buf t) := inferInstanceAs (Decidable (∀ _ ∈ _, _))

private theorem mem_tried {α : Type*} {fails : α → Bool} {skip : Bool} {ks : List α} {k : α} :
    k ∈ tried fails skip ks ↔
      ∃ ks₁ ks₂, ks = ks₁ ++ k :: ks₂ ∧ ks₁.foldl (fun skip l => !skip && fails l) skip = false := by
  induction ks generalizing skip with
  | nil => cases skip <;> simp [tried]
  | cons l ks ih =>
    have hcons : (∃ ks₁ ks₂, l :: ks = ks₁ ++ k :: ks₂ ∧ ks₁.foldl (fun skip l => !skip && fails l) skip = false) ↔
        (k = l ∧ skip = false) ∨ k ∈ tried fails (!skip && fails l) ks := by
      rw [ih]
      constructor
      · intro h
        obtain ⟨ks₁, ks₂, heq, hskip⟩ := h
        rcases List.cons_eq_append_iff.1 heq with ⟨rfl, hk⟩ | ⟨ks₁', rfl, hks⟩
        · cases hk
          exact .inl ⟨rfl, hskip⟩
        · exact .inr ⟨ks₁', ks₂, hks, hskip⟩
      · intro h
        rcases h with ⟨rfl, hskip⟩ | ⟨ks₁, ks₂, rfl, hskip⟩
        · exact ⟨[], ks, rfl, hskip⟩
        · exact ⟨l :: ks₁, ks₂, rfl, hskip⟩
    rw [hcons]
    cases skip <;> simp [tried]

theorem foldl_skip_eq_false {α : Type*} (fails : α → Bool) (ks : List α) :
    ks.foldl (fun skip l => !skip && fails l) false = false ↔ failsBefore fails ks % 2 = 0 := by
  induction ks using List.reverseRecOn with
  | nil => simp [failsBefore]
  | append_singleton ks l ih =>
    rw [List.foldl_append, List.foldl_cons, List.foldl_nil, failsBefore, List.reverse_append, List.reverse_singleton,
      List.singleton_append, List.takeWhile_cons]
    cases fails l with
    | false => simp
    | true =>
      rw [if_pos rfl, List.length_cons, Bool.and_true, Bool.not_eq_false', ← Bool.not_eq_false, ih, failsBefore]
      omega

private theorem mem_tried_false {α : Type*} {fails : α → Bool} {ks : List α} {k : α} :
    k ∈ tried fails false ks ↔ AfterEven fails ks k := by
  rw [mem_tried, AfterEven]
  simp only [foldl_skip_eq_false]

private theorem tried_map {α β : Type*} (f : α → β) (fails : β → Bool) (skip : Bool) (ks : List α) :
    tried fails skip (ks.map f) = (tried (fails ∘ f) skip ks).map f := by
  induction ks generalizing skip with
  | nil => cases skip <;> rfl
  | cons k ks ih => cases skip <;> simp [tried, ih]

theorem kept_map {α β : Type*} (f : α → β) (fails : β → Bool) (skip : Bool) (ks : List α) :
    kept fails skip (ks.map f) = (kept (fails ∘ f) skip ks).map f := by
  induction ks generalizing skip with
  | nil => cases skip <;> rfl
  | cons k ks ih =>
    cases skip with
    | true => simp [kept, ih]
    | false => by_cases hk : fails (f k) = true <;> simp [kept, ih, hk]

theorem kept_eq_nil {α : Type*} {fails : α → Bool} {ks : List α} :
    kept fails false ks = [] ↔ ks.length ≤ 1 ∧ ∀ k ∈ ks, fails k = true := by
  match ks with
  | [] => simp [kept]
  | [k] => cases hk : fails k <;> simp [kept, hk]
  | k :: l :: ks => cases hk : fails k <;> simp [kept, hk]

private theorem pass_sends (out : Outcomes) (off : Nat) (data : List UInt8) (skip : Bool) (cs : List Client) :
    (pass out off data skip cs).2 =
      (tried (fun c => (sendClient out off data data c).res.isNone) skip cs).map (sendClient out off data data) := by
  induction cs generalizing skip with
  | nil => cases skip <;> rfl
  | cons c cs ih => cases skip <;> simp [pass, tried, ih]

theorem pass_left_sub (out : Outcomes) (off : Nat) (data : List UInt8) (skip : Bool) (cs : List Client) :
    (pass out off data skip cs).1.map Client.sub =
      (kept (fun c => (sendClient out off data data c).res.isNone) skip cs).map Client.sub := by
  induction cs generalizing skip with
  | nil => cases skip <;> rfl
  | cons c cs ih =>
    cases skip with
    | true => simp [pass, kept, ih]
    | false =>
      rw [pass, kept]
      by_cases hc : (sendClient out off data data c).res.isNone = true
      · simp [hc, ih]
      · simp [hc, ih, Client.sub]

theorem sendClient_packet_length (out : Outcomes) (off : Nat) (data : List UInt8) (c : Client) :
    (sendClient out off data data c).packet.length = packetLen data.length c.sub := by
  cases hflag : c.udp.flag <;> simp [sendClient, packetLen, Client.sub, hflag]

theorem sendClient_res (out : Outcomes) (off : Nat) (data : List UInt8) (c : Client) :
    (sendClient out off data data c).res = out c.sub.1 off (packetLen data.length c.sub) := by
  rw [← sendClient_packet_length out off data c]
  rfl

theorem sendClient_fails (out : Outcomes) (off : Nat) (data : List UInt8) :
    (fun c => (sendClient out off data data c).res.isNone) = subFails out off data.length ∘ Client.sub := by
  funext c
  rw [sendClient_res]
  rfl

private theorem sendClient_accepted (acc : Accepts) (out : Outcomes) (off : Nat) (data : List UInt8) (c : Client) :
    (sendClient out off data data c).accepted acc = subAccepts acc out off data.length c.sub := by
  rw [Send.accepted, sendClient_packet_length, sendClient_res]
  rfl

theorem blockTaken_iff (acc : Accepts) (out : Outcomes) (off : Nat) (data : List UInt8) (cs : List Client) :
    (∃ s ∈ (pass out off data false cs).2, s.accepted acc = true) ∨ (pass out off data false cs).1 = [] ↔
      BlockTaken acc out off data.length (cs.map Client.sub) := by
  have hempty : (pass out off data false cs).1 = [] ↔
      kept (subFails out off data.length) false (cs.map Client.sub) = [] := by
    rw [kept_map, ← sendClient_fails, ← pass_left_sub, List.map_eq_nil_iff]
  have htried : (∃ s ∈ (pass out off data false cs).2, s.accepted acc = true) ↔
      ∃ k ∈ tried (subFails out off data.length) false (cs.map Client.sub), subAccepts acc out off data.length k = true := by
    rw [pass_sends, sendClient_fails, tried_map]
    simp only [List.mem_map, exists_exists_and_eq_and, sendClient_accepted]
  rw [hempty, kept_eq_nil, htried, BlockTaken]
  simp only [mem_tried_false]

theorem flushList_taken_iff (acc : Accepts) (cfg : Config) (out : Outcomes) (buf : List UInt8) (fuel lo : Nat) (cs : List Client)
    (hfuel : buf.length - lo ≤ fuel) :
    (∀ b ∈ (flushList cfg out buf fuel lo cs).2, (∃ s ∈ b.sends, s.accepted acc = true) ∨ b.fallback = true) ↔
      EveryBlockTaken acc cfg out buf.length (cs.map Client.sub) lo := by
  induction fuel generalizing lo cs with
  | zero => exact ⟨fun _ => .done (by omega), fun _ b hb => by cases hb⟩
  | succ fuel ih =>
    rw [flushList]
    by_cases hlt : lo < buf.length
    · rw [if_pos hlt]
      dsimp only
      have hdata := data_length cfg buf lo cs
      have hpos := blkSize_pos cfg cs (Nat.sub_pos_of_lt hlt)
      have hsub := blkSize_eq_subBlkSize cfg cs (buf.length - lo)
      generalize blkSize cfg cs (buf.length - lo) = size at *
      generalize (buf.drop lo).take size = data at *
      have hih := ih (lo + size) (pass out lo data false cs).1 (by omega)
      rw [pass_left_sub, sendClient_fails, ← kept_map, hdata] at hih
      have hblock := blockTaken_iff acc out lo data cs
      rw [hdata] at hblock
      simp only [List.mem_cons, forall_eq_or_imp, decide_eq_true_eq]
      rw [hblock, hih]
      subst hsub
      constructor
      · intro h
        obtain ⟨htaken, hnext⟩ := h
        exact .block hlt htaken hnext
      · intro h
        cases h with
        | done h => omega
        | block _ htaken hnext => exact ⟨htaken, hnext⟩
    · rw [if_neg hlt]
      exact ⟨fun _ => .done (by omega), fun _ b hb => by cases hb⟩

/-- **No block is lost exactly when each one is taken by a client that is not passed over or leaves the table empty.** -/
theorem noBlockLost_iff (acc : Accepts) (cfg : Config) (out : Outcomes) (udpbuf buf : List UInt8) (t : Table)
    (ht : t.Counted cfg) :
    NoBlockLost acc cfg out udpbuf buf t ↔ EveryBlockTaken acc cfg out buf.length (t.live.map Client.sub) 0 := by
  obtain ⟨-, -, hblocks⟩ := flushLoop_eq_flushList cfg out buf buf.length 0 udpbuf ht
  rw [NoBlockLost, flushWithShstack, hblocks]
  exact flushList_taken_iff acc cfg out buf buf.length 0 t.live (by omega)

theorem noBlockLost_singleFails :
    NoBlockLost (fun r n => r = n) smallConfig (wholeOrFail fun _ _ => false) [] [0x68, 0x69]
      { twoClients with clientsNum := 1 } := by
  refine (noBlockLost_iff _ _ _ _ _ _ ⟨by decide, by decide, by decide, by decide⟩).2 ?_
  exact .block (by decide) (.inr (by decide)) (.done (by decide))

/-- The first client fails and the second one is passed over: the block goes to nobody, whatever counts as accepted. -/
theorem not_noBlockLost_firstFails :
    ¬ ∀ cfg out udpbuf buf t, t.Counted cfg → NoBlockLost (fun _ _ => true) cfg out udpbuf buf t := by
  intro h
  have hlost := h smallConfig (wholeOrFail fun a _ => a = ['b']) [] [0x68, 0x69] twoClients twoClients_counted
  revert hlost
  decide

end Vedruino.Netlog
