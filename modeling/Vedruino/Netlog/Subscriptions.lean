import Mathlib.Data.Set.Insert
import Vedruino.Netlog.Control

/-!
# The table as a set of subscriptions

A subscription is a protocol and the address the logs go to. The table stands for the set of the subscriptions that its entries serve, one entry each. An entry is found by its address string alone, so a request acts on whatever subscription its address has: subscribing leaves it as it is, unsubscribing removes it, and the protocol of the request counts only where the address is new.
-/

namespace Vedruino.Netlog

open Ip

abbrev Subscription := Proto × IpAddr

def Client.proto (c : Client) : Proto := if c.udp.flag then .udp else .tcp

/-- The entry is for the subscription. For UDP it also holds the address that the packets go to. -/
structure Client.Serves (c : Client) (k : Subscription) : Prop where
  proto : c.proto = k.1
  addrStr : c.addrStr = pkIpAddr2str k.2
  addrPort : k.1 = .udp → c.udp.addrPort = k.2

/-- The subscriptions of the entries in use. -/
def Table.subs (t : Table) : Set Subscription := {k | ∃ c ∈ t.live, c.Serves k}

def Table.Addressed (t : Table) : Prop := ∀ c ∈ t.live, ∃ k, c.Serves k

/-- Each subscription of the table has one entry, and each entry is for one of them. -/
structure Table.Represents (t : Table) (S : Set Subscription) : Prop where
  entry : ∀ k ∈ S, ∃! c, c ∈ t.live ∧ c.Serves k
  entries : ∀ c ∈ t.live, ∃! k, k ∈ S ∧ c.Serves k

/-- What an answered request has done to the subscriptions. -/
def Answered (r : Request) (a : IpAddr) (resp : Resp) (S S' : Set Subscription) : Prop :=
  if resp.status = '+' then
    if r.op = opSub then
      (∃ p, (p, a) ∈ S) ∧ S' = S ∨ (∀ p, (p, a) ∉ S) ∧ ∃ p, protoOf r.proto = some p ∧ S' = insert (p, a) S
    else r.op = opUnsub ∧ S' = {k ∈ S | k.2 ≠ a}
  else S' = S

/-- Steps while a request is served: no send of a flush fails. -/
def Input.NoFailure : Input → Prop
  | .request _ _ _ => False
  | .go _ _ => True
  | .flush out _ _ => ∀ a off n, (out a off n).isSome = true

/-- The states of a request that is being served, with flushes in between. -/
inductive Control.Serving (cfg : Config) (s : Control) (req : Input) : Control → Prop
  | start {t} : s.step cfg req = some (t, none) → Serving cfg s req t
  | next {t i u} : Serving cfg s req t → i.NoFailure → t.step cfg i = some (u, none) → Serving cfg s req u

/-- From the state in which a request is accepted to the one in which it is answered. -/
def Control.Exchange (cfg : Config) (s : Control) (req : Input) (resp : Resp) (u : Control) : Prop :=
  s.step cfg req = some (u, some resp) ∨
    ∃ t i, Serving cfg s req t ∧ i.NoFailure ∧ t.step cfg i = some (u, some resp)

/-! ### Entries and subscriptions -/

theorem Client.Serves.of_fixed {c d : Client} {k : Subscription} (h : c.fixed = d.fixed) (hc : c.Serves k) :
    d.Serves k := by
  obtain ⟨hd, addrStr, udp⟩ := c
  obtain ⟨hd', addrStr', udp'⟩ := d
  simp only [Client.fixed, Client.mk.injEq, Udp.mk.injEq] at h
  obtain ⟨-, haddr, hflag, -, hport⟩ := h
  obtain ⟨hproto, haddrStr, haddrPort⟩ := hc
  simp only [Client.proto] at hproto haddrStr haddrPort
  refine ⟨?_, ?_, ?_⟩
  · rw [← hproto, Client.proto, hflag]
  · rw [← haddrStr, haddr]
  · intro hk
    rw [← haddrPort hk, hport]

theorem Table.subs_congr {t t' : Table} (h : t'.live.map Client.fixed = t.live.map Client.fixed) :
    t'.subs = t.subs := by
  have hle : ∀ {t t' : Table}, t'.live.map Client.fixed = t.live.map Client.fixed → t'.subs ⊆ t.subs := by
    intro t t' h k h
    obtain ⟨c, hc, hserves⟩ := h
    have hmem : c.fixed ∈ t.live.map Client.fixed := by
      rw [← h]
      exact List.mem_map_of_mem hc
    obtain ⟨d, hd, heq⟩ := List.mem_map.1 hmem
    exact ⟨d, hd, hserves.of_fixed heq.symm⟩
  exact Set.Subset.antisymm (hle h) (hle h.symm)

theorem Table.Addressed.of_sublist {t t' : Table} (h : t.Addressed)
    (hsub : (t'.live.map Client.fixed).Sublist (t.live.map Client.fixed)) : t'.Addressed := by
  intro c hc
  obtain ⟨d, hd, heq⟩ := List.mem_map.1 (hsub.mem (List.mem_map_of_mem hc))
  obtain ⟨k, hk⟩ := h d hd
  exact ⟨k, hk.of_fixed heq⟩

theorem Client.Serves.inj {c : Client} {k l : Subscription} (hk : c.Serves k) (hl : c.Serves l) : k = l := by
  apply Prod.ext
  · exact hk.proto.symm.trans hl.proto
  · exact pkIpAddr2str_eq_iff.1 (hk.addrStr.symm.trans hl.addrStr)

theorem eq_of_addrStr_eq {cs : List Client} (h : (cs.map Client.addrStr).Nodup) {c d : Client} (hc : c ∈ cs)
    (hd : d ∈ cs) (heq : c.addrStr = d.addrStr) : c = d :=
  List.inj_on_of_nodup_map h hc hd heq

/-- An address is subscribed under one protocol at most. -/
theorem Table.Distinct.proto_eq {t : Table} (h : t.Distinct) {p q : Proto} {a : IpAddr} (hp : (p, a) ∈ t.subs)
    (hq : (q, a) ∈ t.subs) : p = q := by
  obtain ⟨c, hc, hserves⟩ := hp
  obtain ⟨d, hd, hserves'⟩ := hq
  obtain rfl := eq_of_addrStr_eq h hc hd (hserves.addrStr.trans hserves'.addrStr.symm)
  exact hserves.proto.symm.trans hserves'.proto

theorem Table.represents_subs {t : Table} (hdistinct : t.Distinct) (h : t.Addressed) : t.Represents t.subs where
  entry := by
    intro k h
    obtain ⟨c, hc, hserves⟩ := h
    refine ⟨c, ⟨hc, hserves⟩, ?_⟩
    intro d h
    obtain ⟨hd, hserves'⟩ := h
    exact eq_of_addrStr_eq hdistinct hd hc (hserves'.addrStr.trans hserves.addrStr.symm)
  entries := by
    intro c hc
    obtain ⟨k, hk⟩ := h c hc
    exact ⟨k, ⟨⟨c, hc, hk⟩, hk⟩, fun l hl => hl.2.inj hk⟩

theorem Table.Addressed.mem_addrStr {t : Table} (h : t.Addressed) {a : IpAddr} :
    pkIpAddr2str a ∈ t.live.map Client.addrStr ↔ ∃ p, (p, a) ∈ t.subs := by
  rw [List.mem_map]
  constructor
  · intro h
    obtain ⟨c, hc, haddr⟩ := h
    obtain ⟨⟨p, b⟩, hk⟩ := h c hc
    obtain rfl : b = a := pkIpAddr2str_eq_iff.1 (hk.addrStr.symm.trans haddr)
    exact ⟨p, c, hc, hk⟩
  · intro h
    obtain ⟨p, c, hc, hk⟩ := h
    exact ⟨c, hc, hk.addrStr⟩

theorem mem_eraseIdx_iff {cs : List Client} (h : (cs.map Client.addrStr).Nodup) {i : Nat} {c d : Client}
    (hd : cs[i]? = some d) : c ∈ cs.eraseIdx i ↔ c ∈ cs ∧ c.addrStr ≠ d.addrStr := by
  rw [List.mem_eraseIdx_iff_getElem?]
  constructor
  · intro h
    obtain ⟨j, hj, hc⟩ := h
    refine ⟨List.mem_of_getElem? hc, fun heq => hj ?_⟩
    have hlt := (List.getElem?_eq_some_iff.1 hc).1
    refine (List.getElem?_inj (by rwa [List.length_map]) h).1 ?_
    rw [List.getElem?_map, List.getElem?_map, hc, hd, Option.map_some, Option.map_some, heq]
  · intro h
    obtain ⟨hc, hne⟩ := h
    obtain ⟨j, hj⟩ := List.mem_iff_getElem?.1 hc
    refine ⟨j, ?_, hj⟩
    rintro rfl
    rw [hj] at hd
    exact hne (by rw [Option.some.inj hd])

/-! ### One step -/

section

variable {cfg : Config} {s t : Control}

theorem Control.Inv.subs_insert (h : s.Inv cfg) {logChd : Int} {p : Proto} {a : IpAddr}
    (hpc : s.pc = .insert logChd (p = .udp) a) :
    ∃ c : Client, c.Serves (p, a) ∧ c.hd = logChd ∧
      (s.table.addClient s.table.live.length logChd (p = .udp) a (pkIpAddr2str a)).live = s.table.live ++ [c] := by
  have hroom : s.table.live.length ≠ cfg.maxClients := (h.placed (by rw [hpc]; trivial)).ne
  obtain ⟨c, hlive, hhd, haddr, hflag, hport⟩ :=
    h.counted.live_addClient hroom logChd (p = .udp) a (pkIpAddr2str a)
  refine ⟨c, ⟨?_, haddr, ?_⟩, hhd, hlive⟩
  · rw [Client.proto, hflag]
    cases p <;> rfl
  · rintro rfl
    rw [hport (decide_eq_true rfl)]

theorem Table.subs_append {t t' : Table} {c : Client} {k : Subscription} (hc : c.Serves k)
    (h : t'.live = t.live ++ [c]) : t'.subs = insert k t.subs := by
  ext l
  simp only [Table.subs, h, List.mem_append, List.mem_singleton, Set.mem_ofPred_eq, Set.mem_insert_iff]
  constructor
  · intro h
    obtain ⟨d, hd | rfl, hl⟩ := h
    · exact .inr ⟨d, hd, hl⟩
    · exact .inl (hl.inj hc)
  · intro h
    rcases h with rfl | ⟨d, hd, hl⟩
    · exact ⟨c, .inr rfl, hc⟩
    · exact ⟨d, .inl hd, hl⟩

theorem Control.Inv.subs_delClient (h : s.Inv cfg) {a : IpAddr} {i : Nat}
    (hidx : s.table.getClientIdxByAddrStr (pkIpAddr2str a) = some i) :
    (s.table.delClient i).subs = {k ∈ s.table.subs | k.2 ≠ a} := by
  obtain ⟨d, hd, haddr⟩ := Table.getClientIdxByAddrStr_eq_some hidx
  have hlive := h.counted.live_delClient (List.getElem?_eq_some_iff.1 hd).1
  ext k
  simp only [Table.subs, hlive, mem_eraseIdx_iff h.distinct hd, haddr, Set.mem_ofPred_eq]
  constructor
  · intro h
    obtain ⟨c, ⟨hc, hne⟩, hk⟩ := h
    refine ⟨⟨c, hc, hk⟩, ?_⟩
    rintro rfl
    exact hne hk.addrStr
  · intro h
    obtain ⟨⟨c, hc, hk⟩, hne⟩ := h
    refine ⟨c, ⟨hc, fun heq => hne ?_⟩, hk⟩
    exact pkIpAddr2str_eq_iff.1 (hk.addrStr.symm.trans heq)

private theorem pass_noFailure {out : Outcomes} (hout : ∀ a off n, (out a off n).isSome = true) (off : Nat)
    (data : List UInt8) (cs : List Client) :
    (pass out off data false cs).1.map Client.fixed = cs.map Client.fixed := by
  rw [pass_calm hout, List.map_map]
  apply List.map_congr_left
  intro c _
  exact c.sent_fixed

private theorem flush_noFailure {out : Outcomes} (hout : ∀ a off n, (out a off n).isSome = true) (udpbuf buf : List UInt8)
    {t : Table} (h : t.Counted cfg) :
    (flushWithShstack cfg out udpbuf buf t).1.live.map Client.fixed = t.live.map Client.fixed := by
  obtain ⟨-, hlive, -⟩ := flushLoop_eq_flushList cfg out buf buf.length 0 udpbuf h
  rw [flushWithShstack, hlive]
  generalize buf.length = fuel, 0 = sent
  generalize t.live = cs
  induction fuel generalizing sent cs with
  | zero => rfl
  | succ fuel ih =>
    rw [flushList]
    split
    · exact (ih _ _).trans (pass_noFailure hout _ _ _)
    · rfl

/-! ### A whole request -/

/-- The control task is on its way with the request. -/
def Pc.For (r : Request) (a : IpAddr) : Pc → Prop
  | .lookup proto b | .room proto b | .connect proto b => r.op = opSub ∧ proto = r.proto ∧ b = a
  | .insert _ isUdp b => r.op = opSub ∧ b = a ∧ ∃ p, protoOf r.proto = some p ∧ isUdp = decide (p = .udp)
  | .unsub b => r.op = opUnsub ∧ b = a
  | .accept | .assertFailed => False

/-- While a request is served the table changes in packet counters only. -/
structure Control.Pursues (r : Request) (a : IpAddr) (s t : Control) : Prop where
  live : t.table.live.map Client.fixed = s.table.live.map Client.fixed
  pc : t.pc.For r a

variable {r : Request} {a ctlAddr : IpAddr} {u : Control} {i : Input} {resp : Resp} {bufs : ReqBufs} {c : Conn}

theorem Control.Pursues.start (hread : ctlReadReq bufs c = some r)
    (hstep : s.step cfg (.request ctlAddr bufs c) = some (t, none)) : Pursues r ⟨ctlAddr.addr, r.port⟩ s t := by
  cases Control.step_cases hstep with
  | sub _ hread' hop =>
    obtain rfl := Option.some.inj (hread.symm.trans hread')
    exact ⟨rfl, hop, rfl, rfl⟩
  | unsub _ hread' hop =>
    obtain rfl := Option.some.inj (hread.symm.trans hread')
    exact ⟨rfl, hop, rfl⟩

theorem Control.Pursues.step (h : Pursues r a s t) (ht : t.Inv cfg) (hi : i.NoFailure)
    (hstep : t.step cfg i = some (u, none)) : Pursues r a s u := by
  obtain ⟨hlive, hpc⟩ := h
  cases Control.step_cases hstep with
  | flush => exact ⟨(flush_noFailure hi _ _ ht.counted).trans hlive, hpc⟩
  | sub | unsub => exact hi.elim
  | absent hpc' | room hpc' =>
    rw [hpc'] at hpc
    exact ⟨hlive, hpc⟩
  | connected hpc' hproto =>
    rw [hpc'] at hpc
    obtain ⟨hop, rfl, hb⟩ := hpc
    exact ⟨hlive, hop, hb, _, hproto, rfl⟩
  | assertFailed => exact absurd rfl (ht.step hstep).asserted

theorem Control.Serving.inv {req : Input} (hs : s.Inv cfg) (h : Serving cfg s req t) : t.Inv cfg := by
  induction h with
  | start hstep => exact hs.step hstep
  | next _ _ hstep ih => exact ih.step hstep

theorem Control.Serving.pursues (hs : s.Inv cfg) (hread : ctlReadReq bufs c = some r)
    (h : Serving cfg s (.request ctlAddr bufs c) t) : Pursues r ⟨ctlAddr.addr, r.port⟩ s t := by
  induction h with
  | start hstep => exact .start hread hstep
  | next hserving hi hstep ih => exact ih.step (hserving.inv hs) hi hstep

theorem answered_error {S S' : Set Subscription} (h : resp.status = '-') : Answered r a resp S S' ↔ S' = S := by
  rw [Answered, if_neg (by rw [h]; decide)]

theorem answered_sub {S S' : Set Subscription} (h : resp.status = '+') (hop : r.op = opSub) :
    Answered r a resp S S' ↔ (∃ p, (p, a) ∈ S) ∧ S' = S ∨
      (∀ p, (p, a) ∉ S) ∧ ∃ p, protoOf r.proto = some p ∧ S' = insert (p, a) S := by
  rw [Answered, if_pos h, if_pos hop]

theorem answered_unsub {S S' : Set Subscription} (h : resp.status = '+') (hop : r.op = opUnsub) :
    Answered r a resp S S' ↔ S' = {k ∈ S | k.2 ≠ a} := by
  rw [Answered, if_pos h, if_neg (by rw [hop]; decide)]
  exact and_iff_right hop

theorem Control.Pursues.answer (h : Pursues r a s t) (ht : t.Inv cfg) (haddr : t.table.Addressed) (hi : i.NoFailure)
    (hstep : t.step cfg i = some (u, some resp)) :
    Answered r a resp s.table.subs u.table.subs ∧
      (resp.status = '-' → u.table.live.map Client.fixed = s.table.live.map Client.fixed) := by
  obtain ⟨hlive, hpc⟩ := h
  rw [← Table.subs_congr hlive]
  cases Control.step_cases hstep with
  | malformed => exact hi.elim
  | found hpc' hmem =>
    rw [hpc'] at hpc
    obtain ⟨hop, -, rfl⟩ := hpc
    refine ⟨?_, fun _ => hlive⟩
    exact (answered_sub rfl hop).2 (.inl ⟨haddr.mem_addrStr.1 hmem, rfl⟩)
  | refused _ hstatus => exact ⟨(answered_error hstatus).2 rfl, fun _ => hlive⟩
  | inserted hpc' hfree =>
    obtain ⟨-, rfl⟩ := ht.lt_of_free hfree
    have habsent := ht.absent
    rw [hpc'] at hpc habsent
    obtain ⟨hop, rfl, p, hproto, rfl⟩ := hpc
    obtain ⟨d, hserves, -, happend⟩ := ht.subs_insert hpc'
    refine ⟨?_, fun hstatus => absurd hstatus (by decide)⟩
    refine (answered_sub rfl hop).2 (.inr ⟨fun q hq => ?_, p, hproto, Table.subs_append hserves happend⟩)
    exact habsent _ rfl (haddr.mem_addrStr.2 ⟨q, hq⟩)
  | unknown hpc' habsent =>
    rw [hpc'] at hpc
    obtain ⟨hop, rfl⟩ := hpc
    refine ⟨?_, fun _ => hlive⟩
    refine (answered_unsub rfl hop).2 (Set.Subset.antisymm (fun k hk => ⟨hk, ?_⟩) fun k hk => hk.1)
    rintro rfl
    exact habsent (haddr.mem_addrStr.2 ⟨k.1, hk⟩)
  | removed hpc' hidx =>
    rw [hpc'] at hpc
    obtain ⟨hop, rfl⟩ := hpc
    refine ⟨?_, fun hstatus => absurd hstatus (by decide)⟩
    exact (answered_unsub rfl hop).2 (ht.subs_delClient hidx)

/-! ### Every run -/

theorem Control.Inv.addressed_step {resp : Option Resp} (h : s.Inv cfg) (haddr : s.table.Addressed)
    (hstep : s.step cfg i = some (t, resp)) : t.table.Addressed := by
  cases Control.step_cases hstep with
  | flush => exact haddr.of_sublist (flush_sublist _ _ _ h.counted).2
  | malformed | sub | unsub | found | absent | room | refused | connected | assertFailed | unknown => exact haddr
  | @inserted logChd isUdp b _ _ _ hpc hfree =>
    obtain ⟨-, rfl⟩ := h.lt_of_free hfree
    obtain ⟨p, rfl⟩ : ∃ p : Proto, isUdp = decide (p = .udp) := by
      cases isUdp
      · exact ⟨.tcp, rfl⟩
      · exact ⟨.udp, rfl⟩
    obtain ⟨d, hserves, -, happend⟩ := h.subs_insert hpc
    intro e he
    dsimp only at he
    rw [happend, List.mem_append, List.mem_singleton] at he
    rcases he with he | rfl
    · exact haddr e he
    · exact ⟨_, hserves⟩
  | removed _ hidx =>
    obtain ⟨d, hd, -⟩ := Table.getClientIdxByAddrStr_eq_some hidx
    refine haddr.of_sublist ?_
    rw [h.counted.live_delClient (List.getElem?_eq_some_iff.1 hd).1]
    exact (List.eraseIdx_sublist _ _).map _

theorem Control.addressed_of_reachable (h : (control cfg).Reachable s) : s.table.Addressed := by
  refine (h.invariant (I := fun s => s.Inv cfg ∧ s.table.Addressed) ?_ ?_).2
  · intro s hinit
    refine ⟨.init hinit, ?_⟩
    rw [Table.Addressed, Table.live, hinit.2.1]
    exact fun c hc => absurd hc List.not_mem_nil
  · intro s l t hs _ hstep
    exact ⟨hs.1.step hstep, hs.1.addressed_step hs.2 hstep⟩

theorem Control.Serving.reachable {req : Input} (hs : (control cfg).Reachable s) (h : Serving cfg s req t) :
    (control cfg).Reachable t := by
  induction h with
  | start hstep => exact reachable_step hs hstep
  | next _ _ hstep ih => exact reachable_step ih hstep

/-- **The table refines a set of subscriptions.** After any history, an answered request has done to the set what its answer says, and the table represents the set, in which an address has one protocol at most. -/
theorem exchange_refines (hs : (control cfg).Reachable s) (hread : ctlReadReq bufs c = some r)
    (hx : s.Exchange cfg (.request ctlAddr bufs c) resp u) :
    Answered r ⟨ctlAddr.addr, r.port⟩ resp s.table.subs u.table.subs ∧
      (resp.status = '-' → u.table.live.map Client.fixed = s.table.live.map Client.fixed) ∧
      u.table.Represents u.table.subs ∧ u.table.Distinct ∧
      ∀ p q a, (p, a) ∈ u.table.subs → (q, a) ∈ u.table.subs → p = q := by
  rcases hx with hstep | ⟨t, i, hserving, hi, hstep⟩
  · have hu := Control.reachable_step hs hstep
    have hdistinct := (Control.inv_of_reachable hu).distinct
    have hrep := Table.represents_subs hdistinct (Control.addressed_of_reachable hu)
    cases Control.step_cases hstep with
    | malformed => exact ⟨(answered_error rfl).2 rfl, fun _ => rfl, hrep, hdistinct, fun _ _ _ => hdistinct.proto_eq⟩
  · have ht := hserving.reachable hs
    have hu := Control.reachable_step ht hstep
    have hpursues := hserving.pursues (Control.inv_of_reachable hs) hread
    obtain ⟨hanswered, herror⟩ :=
      hpursues.answer (Control.inv_of_reachable ht) (Control.addressed_of_reachable ht) hi hstep
    have hdistinct := (Control.inv_of_reachable hu).distinct
    exact ⟨hanswered, herror, Table.represents_subs hdistinct (Control.addressed_of_reachable hu), hdistinct,
      fun _ _ _ => hdistinct.proto_eq⟩

end

def unsubTcp : Request := ⟨Proto.tcp.bytes, 9, opUnsub⟩

def subTcp : Request := ⟨Proto.tcp.bytes, 9, opSub⟩

def unsubbed : Control := ⟨udpClient.table.delClient 0, .accept⟩

private theorem udpClient_unsub : udpClient.Exchange oneClient (localRequest unsubTcp) .ok unsubbed :=
  .inr ⟨⟨udpClient.table, .unsub ⟨0x7f000001, 9⟩⟩, .go none false, .start rfl, trivial, rfl⟩

private theorem udpClient_sub : udpClient.Exchange oneClient (localRequest subTcp) .okIgnored udpClient :=
  .inr ⟨⟨udpClient.table, .lookup Proto.tcp.bytes ⟨0x7f000001, 9⟩⟩, .go none false, .start rfl, trivial, rfl⟩

theorem exchange_refines_unsub : Answered unsubTcp ⟨0x7f000001, 9⟩ .ok udpClient.table.subs unsubbed.table.subs ∧
    (Resp.ok.status = '-' → unsubbed.table.live.map Client.fixed = udpClient.table.live.map Client.fixed) ∧
      unsubbed.table.Represents unsubbed.table.subs := by
  obtain ⟨hanswered, herror, hrep, -, -⟩ :=
    exchange_refines udpClient_reachable (ctlReadReq_bytes zeroBufs (r := unsubTcp) rfl []) udpClient_unsub
  exact ⟨hanswered, herror, hrep⟩

/-- The address of the UDP client is answered with `+` when it subscribes for TCP. -/
theorem udpClient_subTcp_ok : ¬ ∀ cfg s u ctlAddr bufs c r resp, (control cfg).Reachable s →
    ctlReadReq bufs c = some r → s.Exchange cfg (.request ctlAddr bufs c) resp u → resp.status = '+' →
    r.op = opSub → ∃ p, protoOf r.proto = some p ∧ (p, ⟨ctlAddr.addr, r.port⟩) ∈ u.table.subs := by
  intro h
  obtain ⟨p, hproto, c, hc, hserves⟩ := h _ _ _ _ _ _ _ _ udpClient_reachable
    (ctlReadReq_bytes zeroBufs (r := subTcp) rfl []) udpClient_sub rfl rfl
  obtain rfl : p = .tcp := Option.some.inj hproto.symm
  obtain rfl : c = ⟨3, pkIpAddr2str ⟨0x7f000001, 9⟩, ⟨true, 0, ⟨0x7f000001, 9⟩⟩⟩ := List.mem_singleton.1 hc
  cases hserves.proto

end Vedruino.Netlog
