import Mathlib.Data.Finset.Basic
import Mathlib.Data.Finset.Lattice.Lemmas
import Vedruino.Netlog.Control

/-!
# The sockets of netlog

Every socket that netlog opens has one owner at a time: the server task itself, the request it serves, or an entry of the table. `Control.handles_perm` says what a step of the control server does to the handles: what was held and what is opened is what is closed and what is held afterwards. It leaves out one step, a `pk_tcp_connect` that fails, after which nobody holds the new socket.
-/

namespace Vedruino.Netlog

open Ip

/-- Where `ctl_server_task` is: before `pk_tcp_server`, before `bcast_boot_notify`, in its loop, or aborted by an assertion. -/
inductive ServerPhase
  | start
  | listening (shd : Int)
  | serving (shd : Int)
  | aborted
  deriving DecidableEq, Repr

structure Sockets where
  phase : ServerPhase
  control : Control
  /-- The connection of the request that is served. -/
  ctlHd : Option Int
  /-- The sockets opened and not closed. -/
  opened : Finset Int

/-- A step of the server task or a flush. A handle is what `socket` or `accept` returns. -/
inductive SockEvent
  | listen (shd : Option Int)
  /-- `bcast_boot_notify`: its socket and whether enough of its messages were sent. -/
  | notify (chd : Option Int) (enough : Bool)
  | accept (ctlHd : Option Int)
  | control (i : Input)

/-- The handles of the entries that `del_client` removes in a round of the flush. -/
def Block.closed (b : Block) : List Int := (b.sends.filter fun s => s.res.isNone).map fun s => s.client.hd

def Control.opens (s : Control) : Input → List Int
  | .go (some hd) _ =>
    match s.pc with
    | .connect proto _ => if (protoOf proto).isSome then [hd] else []
    | _ => []
  | _ => []

def Control.closes (cfg : Config) (s : Control) : Input → List Int
  | .request _ _ _ => []
  | .go _ _ =>
    match s.pc with
    | .unsub logAddr =>
      ((s.table.getClientIdxByAddrStr (pkIpAddr2str logAddr)).bind (s.table.clients[·]?)).toList.map Client.hd
    | _ => []
  | .flush out udpbuf buf => (flushWithShstack cfg out udpbuf buf s.table).2.flatMap Block.closed

/-- `pk_tcp_connect` fails in `ctl_sub`. -/
def Control.connectFails (s : Control) : Input → Bool
  | .go (some _) false =>
    match s.pc with
    | .connect proto _ => protoOf proto = some .tcp
    | _ => false
  | _ => false

def Input.isFlush : Input → Bool
  | .flush _ _ _ => true
  | _ => false

/-- A step of the control server with its sockets. When it answers the request, the connection is closed. -/
def Sockets.controlStep (cfg : Config) (s : Sockets) (i : Input) : Option Sockets :=
  (s.control.step cfg i).map fun r =>
    let opened := (s.opened ∪ (s.control.opens i).toFinset) \ (s.control.closes cfg i).toFinset
    match r.2 with
    | none => { s with control := r.1, opened }
    | some _ => { s with control := r.1, ctlHd := none, opened := opened \ s.ctlHd.toList.toFinset }

/-- `ctl_server_task` up to `pk_tcp_server`. Here and below a new handle is none of an open socket. -/
def Sockets.listen (s : Sockets) (shd : Option Int) : Option Sockets :=
  match s.phase, shd with
  | .start, none => some { s with phase := .aborted }
  | .start, some shd =>
    if shd ∈ s.opened then none else some { s with phase := .listening shd, opened := insert shd s.opened }
  | _, _ => none

def Sockets.bcastBootNotify (s : Sockets) (chd : Option Int) (enough : Bool) : Option Sockets :=
  match s.phase, chd with
  | .listening _, none => some { s with phase := .aborted }
  | .listening shd, some chd =>
    if chd ∈ s.opened then none
    else if enough then some { s with phase := .serving shd, opened := (insert chd s.opened).erase chd }
    else some { s with phase := .aborted, opened := insert chd s.opened }
  | _, _ => none

def Sockets.accept (s : Sockets) (ctlHd : Option Int) : Option Sockets :=
  match s.phase, s.ctlHd, ctlHd with
  -- `err_cont` with the handle -1: the sends and the close get it too and fail
  | .serving _, none, none => some s
  | .serving _, none, some hd =>
    if hd ∈ s.opened then none else some { s with ctlHd := some hd, opened := insert hd s.opened }
  | _, _, _ => none

def Sockets.step (cfg : Config) (s : Sockets) : SockEvent → Option Sockets
  | .listen shd => s.listen shd
  | .notify chd enough => s.bcastBootNotify chd enough
  | .accept ctlHd => s.accept ctlHd
  | .control i =>
    if s.phase = .aborted ∨ (s.ctlHd = none ∧ i.isFlush = false) ∨ ∃ hd ∈ s.control.opens i, hd ∈ s.opened then none
    else s.controlStep cfg i

/-- At the start no socket is open. -/
structure Sockets.Init (cfg : Config) (s : Sockets) : Prop where
  phase : s.phase = .start
  control : s.control.Init cfg
  ctlHd : s.ctlHd = none
  opened : s.opened = ∅

def sockets (cfg : Config) : System Sockets SockEvent := .ofStep (Sockets.Init cfg) (Sockets.step cfg)

/-- Every `pk_tcp_connect` of the step succeeds. -/
def Connects (s : Sockets) : SockEvent → Prop
  | .control i => s.control.connectFails i = false
  | .listen _ | .notify _ _ | .accept _ => True

instance (s : Sockets) : DecidablePred (Connects s)
  | .control _ => inferInstanceAs (Decidable (_ = _))
  | .listen _ | .notify _ _ | .accept _ => isTrue trivial

/-! ### The handles that somebody holds -/

def Pc.handles : Pc → List Int
  | .insert logChd _ _ => [logChd]
  | _ => []

def Control.handles (s : Control) : List Int := s.pc.handles ++ s.table.live.map Client.hd

def ServerPhase.handles : ServerPhase → List Int
  | .listening shd | .serving shd => [shd]
  | .start | .aborted => []

def Sockets.handles (s : Sockets) : List Int := s.phase.handles ++ (s.ctlHd.toList ++ s.control.handles)

variable {cfg : Config}

theorem Client.sent_hd (c : Client) : c.sent.hd = c.hd := Client.hd_eq_of_fixed c.sent_fixed

private theorem pass_handles (out : Outcomes) (off : Nat) (data : List UInt8) (skip : Bool) (cs : List Client) :
    (cs.map Client.hd).Perm ((((pass out off data skip cs).2.filter fun s => s.res.isNone).map fun s => s.client.hd) ++
      (pass out off data skip cs).1.map Client.hd) := by
  induction cs generalizing skip with
  | nil => cases skip <;> exact List.Perm.refl _
  | cons c cs ih =>
    cases skip with
    | true =>
      rw [pass, List.map_cons]
      exact ((ih false).cons c.hd).trans List.perm_middle.symm
    | false =>
      rw [pass, List.map_cons]
      by_cases hfail : (sendClient out off data data c).res.isNone = true
      · simp only [hfail, if_true, List.filter_cons_of_pos, List.map_cons, List.cons_append]
        exact (ih true).cons c.hd
      · rw [Bool.not_eq_true] at hfail
        simp only [hfail, Bool.false_eq_true, if_false, not_false_eq_true, List.filter_cons_of_neg, List.map_cons,
          Client.sent_hd]
        exact ((ih false).cons c.hd).trans List.perm_middle.symm

private theorem flushList_handles (cfg : Config) (out : Outcomes) (buf : List UInt8) (fuel sent : Nat) (cs : List Client) :
    (cs.map Client.hd).Perm ((flushList cfg out buf fuel sent cs).2.flatMap Block.closed ++
      (flushList cfg out buf fuel sent cs).1.map Client.hd) := by
  induction fuel generalizing sent cs with
  | zero => exact List.Perm.refl _
  | succ fuel ih =>
    rw [flushList]
    split
    · dsimp only
      rw [List.flatMap_cons, List.append_assoc]
      exact (pass_handles out sent _ false cs).trans ((ih _ _).append_left _)
    · exact List.Perm.refl _

private theorem eraseIdx_handles {cs : List Client} {i : Nat} {c : Client} (hc : cs[i]? = some c) :
    (cs.map Client.hd).Perm (c.hd :: (cs.eraseIdx i).map Client.hd) := by
  obtain ⟨hi, rfl⟩ := List.getElem?_eq_some_iff.1 hc
  exact ((List.getElem_cons_eraseIdx_perm hi).map Client.hd).symm

/-- Where `ctl_sub` gives up other than after a failed `pk_tcp_connect`, it has opened no socket. -/
theorem Control.opens_of_refused {s t : Control} {hd : Option Int} {connected : Bool} {resp : Resp}
    (hpc : (∃ proto a, s.pc = .room proto a) ∨ ∃ proto a, s.pc = .connect proto a)
    (hstep : s.go cfg hd connected = some (t, some resp)) (hconnect : s.connectFails (.go hd connected) = false) :
    s.opens (.go hd connected) = [] := by
  match hd with
  | none => rfl
  | some hd =>
    rcases hpc with ⟨proto, a, hpc⟩ | ⟨proto, a, hpc⟩
    · rw [opens, hpc]
    · rw [go, hpc] at hstep
      rw [opens, hpc]
      dsimp only at hstep ⊢
      cases hproto : protoOf proto with
      | none => rfl
      | some p =>
        rw [hproto] at hstep
        cases p with
        | udp => cases hstep
        | tcp =>
          cases connected with
          | true => cases hstep
          | false =>
            rw [connectFails, hpc] at hconnect
            exact absurd hproto (of_decide_eq_false hconnect)

theorem Control.handles_of_pc {s : Control} {pc : Pc} (hpc : s.pc.handles = []) (hpc' : pc.handles = []) :
    Control.handles { s with pc := pc } = s.handles := by
  rw [handles, handles, hpc, hpc']

/-- A flush closes the sockets of the entries that it deletes. -/
theorem Control.handles_flush {s : Control} (hs : s.Inv cfg) (out : Outcomes) (udpbuf buf : List UInt8) :
    s.handles.Perm (s.closes cfg (.flush out udpbuf buf) ++
      Control.handles { s with table := (flushWithShstack cfg out udpbuf buf s.table).1 }) := by
  obtain ⟨-, hlive, hblocks⟩ := flushLoop_eq_flushList cfg out buf buf.length 0 udpbuf hs.counted
  rw [closes, handles, handles, flushWithShstack, hlive, hblocks]
  dsimp only
  refine ((flushList_handles cfg out buf buf.length 0 s.table.live).append_left _).trans ?_
  rw [← List.append_assoc, ← List.append_assoc]
  exact List.perm_append_comm.append_right _

/-- The socket of the request is that of the new entry. -/
theorem Control.handles_inserted {s : Control} (hs : s.Inv cfg) {logChd : Int} {isUdp : Bool} {a : IpAddr} {i : Nat}
    (hpc : s.pc = .insert logChd isUdp a) (hfree : s.table.getFreeIdxInClients cfg = some i) :
    s.handles.Perm (Control.handles ⟨s.table.addClient i logChd isUdp a (pkIpAddr2str a), .accept⟩) := by
  obtain ⟨hlt, rfl⟩ := hs.lt_of_free hfree
  obtain ⟨c, hlive, hhd, -⟩ := hs.counted.live_addClient hlt.ne logChd isUdp a (pkIpAddr2str a)
  rw [handles, handles, hpc]
  dsimp only
  rw [hlive, List.map_append, List.map_singleton, hhd]
  show ([logChd] ++ s.table.live.map Client.hd).Perm (s.table.live.map Client.hd ++ [logChd])
  exact List.perm_append_comm

/-- **What was held and is opened is closed or held afterwards.** -/
theorem Control.handles_perm {s t : Control} {i : Input} {resp : Option Resp} (hs : s.Inv cfg)
    (hstep : s.step cfg i = some (t, resp)) (hconnect : s.connectFails i = false) :
    (s.opens i ++ s.handles).Perm (s.closes cfg i ++ t.handles) := by
  -- a step that neither opens nor closes keeps the handles
  have hsame : ∀ {pc}, s.opens i = [] → s.closes cfg i = [] → s.pc.handles = [] → pc.handles = [] →
      (s.opens i ++ s.handles).Perm (s.closes cfg i ++ Control.handles { s with pc := pc }) := by
    intro pc hopens hcloses hpc hpc'
    rw [hopens, hcloses, handles_of_pc hpc hpc']
  cases Control.step_cases hstep with
  | @flush out udpbuf buf _ => exact handles_flush hs out udpbuf buf
  | malformed => exact List.Perm.refl _
  | sub hpc | unsub hpc => exact hsame rfl rfl (by rw [hpc]; rfl) rfl
  | @found _ _ hd connected hpc | @absent _ _ hd connected hpc | @room _ _ hd connected _ hpc =>
    refine hsame ?_ ?_ (by rw [hpc]; rfl) rfl
    · cases hd <;> simp [opens, hpc]
    · simp [closes, hpc]
  | @refused proto a hd connected resp hpc _ =>
    refine hsame (opens_of_refused ?_ hstep hconnect) ?_ ?_ rfl
    · exact hpc.imp (fun h => ⟨proto, a, h⟩) fun h => ⟨proto, a, h⟩
    · rcases hpc with hpc | hpc <;> simp [closes, hpc]
    · rcases hpc with hpc | hpc <;> rw [hpc] <;> rfl
  | connected hpc hproto =>
    have hopens : s.pc.handles = [] := by rw [hpc]; rfl
    simp [opens, closes, hpc, hproto, handles, Pc.handles]
  | assertFailed hpc hfree =>
    exact absurd rfl (hs.step hstep).asserted
  | @inserted logChd isUdp a hd connected i hpc hfree =>
    have hopens : s.opens (.go hd connected) = [] := by cases hd <;> simp [opens, hpc]
    have hcloses : s.closes cfg (.go hd connected) = [] := by simp [closes, hpc]
    rw [hopens, hcloses]
    exact handles_inserted hs hpc hfree
  | @unknown a hd connected hpc habsent =>
    refine hsame ?_ ?_ (by rw [hpc]; rfl) rfl
    · cases hd <;> simp [opens, hpc]
    · rw [closes, hpc]
      dsimp only
      rw [Table.getClientIdxByAddrStr_eq_none.2 habsent]
      rfl
  | @removed a hd connected i hpc hidx =>
    obtain ⟨c, hc, -⟩ := Table.getClientIdxByAddrStr_eq_some hidx
    have hlt := (List.getElem?_eq_some_iff.1 hc).1
    have hopens : s.opens (.go hd connected) = [] := by cases hd <;> simp [opens, hpc]
    have hcloses : s.closes cfg (.go hd connected) = [c.hd] := by
      rw [closes, hpc]
      dsimp only
      rw [hidx, Option.bind_some, Table.getElem?_live hlt, hc]
      rfl
    rw [hopens, hcloses, handles, handles, hpc]
    dsimp only
    rw [hs.counted.live_delClient hlt]
    exact eraseIdx_handles hc

/-! ### The sockets of a run -/

theorem toFinset_sdiff {xs cs rs : List Int} (h : xs.Perm (cs ++ rs)) (hnodup : xs.Nodup) :
    xs.toFinset \ cs.toFinset = rs.toFinset ∧ rs.Nodup := by
  obtain ⟨-, hrs, hdisjoint⟩ := List.nodup_append'.1 (h.nodup_iff.1 hnodup)
  refine ⟨?_, hrs⟩
  rw [List.toFinset_eq_of_perm _ _ h, List.toFinset_append]
  ext hd
  rw [Finset.mem_sdiff, Finset.mem_union, List.mem_toFinset, List.mem_toFinset]
  constructor
  · exact fun hmem => hmem.1.resolve_left hmem.2
  · exact fun hmem => ⟨.inr hmem, fun hc => hdisjoint hc hmem⟩

/-- Exactly the handles that somebody holds are open, each held once. -/
structure Sockets.Inv (cfg : Config) (s : Sockets) : Prop where
  control : s.control.Inv cfg
  opened : s.phase ≠ .aborted → s.opened = s.handles.toFinset ∧ s.handles.Nodup
  idle : s.ctlHd = none → s.control.pc.handles = []

theorem Control.nodup_opens (s : Control) (i : Input) : (s.opens i).Nodup := by
  match i with
  | .request _ _ _ | .flush _ _ _ | .go none _ => exact List.nodup_nil
  | .go (some hd) _ =>
    rw [opens]
    split
    · split
      · exact List.nodup_singleton hd
      · exact List.nodup_nil
    · exact List.nodup_nil

theorem Control.pc_of_response {s t : Control} {i : Input} {resp : Resp} (hstep : s.step cfg i = some (t, some resp)) :
    t.pc = .accept := by
  cases Control.step_cases hstep with
  | malformed hpc => exact hpc
  | found | refused | inserted | unknown | removed => rfl

theorem Control.pc_of_flush {s t : Control} {i : Input} {resp : Option Resp} (hstep : s.step cfg i = some (t, resp))
    (hi : i.isFlush = true) : t.pc = s.pc := by
  cases Control.step_cases hstep with
  | flush => rfl
  | malformed | sub | unsub | found | absent | room | refused | connected | assertFailed | inserted | unknown | removed =>
    cases hi

theorem Sockets.Inv.controlStep {s t : Sockets} {i : Input} (h : s.Inv cfg) (hphase : s.phase ≠ .aborted)
    (hidle : s.ctlHd = none → i.isFlush = true) (hfresh : ∀ hd ∈ s.control.opens i, hd ∉ s.opened)
    (hconnect : s.control.connectFails i = false) (hstep : s.controlStep cfg i = some t) : t.Inv cfg := by
  rw [Sockets.controlStep, Option.map_eq_some_iff] at hstep
  obtain ⟨⟨u, resp⟩, hcontrol, ht⟩ := hstep
  obtain ⟨hopened, hnodup⟩ := h.opened hphase
  have hperm := Control.handles_perm h.control hcontrol hconnect
  generalize hcs : s.control.closes cfg i = cs at hperm ht
  have hall : (s.control.opens i ++ s.handles).Perm (cs ++ (s.phase.handles ++ (s.ctlHd.toList ++ u.handles))) := by
    calc
      _ = s.control.opens i ++ (s.phase.handles ++ (s.ctlHd.toList ++ s.control.handles)) := rfl
      _ = s.control.opens i ++ ((s.phase.handles ++ s.ctlHd.toList) ++ s.control.handles) := by rw [List.append_assoc]
      List.Perm _ (s.control.opens i ++ (s.control.handles ++ (s.phase.handles ++ s.ctlHd.toList))) :=
        List.perm_append_comm.append_left _
      _ = (s.control.opens i ++ s.control.handles) ++ (s.phase.handles ++ s.ctlHd.toList) := by rw [List.append_assoc]
      List.Perm _ ((cs ++ u.handles) ++ (s.phase.handles ++ s.ctlHd.toList)) := hperm.append_right _
      _ = cs ++ (u.handles ++ (s.phase.handles ++ s.ctlHd.toList)) := by rw [List.append_assoc]
      List.Perm _ (cs ++ ((s.phase.handles ++ s.ctlHd.toList) ++ u.handles)) := List.perm_append_comm.append_left _
      _ = cs ++ (s.phase.handles ++ (s.ctlHd.toList ++ u.handles)) := by rw [List.append_assoc]
  have hnodup' : (s.control.opens i ++ s.handles).Nodup := by
    refine List.Nodup.append (s.control.nodup_opens i) hnodup ?_
    intro hd hmem hheld
    exact hfresh hd hmem (by rw [hopened]; exact List.mem_toFinset.2 hheld)
  have hunion : s.opened ∪ (s.control.opens i).toFinset = (s.control.opens i ++ s.handles).toFinset := by
    rw [List.toFinset_append, hopened, Finset.union_comm]
  obtain ⟨hleft, hnodup⟩ := toFinset_sdiff hall hnodup'
  rw [hunion, hleft] at ht
  have hu := h.control.step hcontrol
  cases resp with
  | none =>
    cases ht
    refine ⟨hu, fun _ => ⟨rfl, hnodup⟩, fun hnone => ?_⟩
    dsimp only
    rw [Control.pc_of_flush hcontrol (hidle hnone)]
    exact h.idle hnone
  | some resp =>
    cases ht
    refine ⟨hu, fun _ => ?_, fun _ => ?_⟩
    · have hclose : (s.phase.handles ++ (s.ctlHd.toList ++ u.handles)).Perm
          (s.ctlHd.toList ++ (s.phase.handles ++ u.handles)) := by
        rw [← List.append_assoc, ← List.append_assoc]
        exact List.perm_append_comm.append_right _
      exact toFinset_sdiff hclose hnodup
    · dsimp only
      rw [Control.pc_of_response hcontrol]
      rfl

theorem Sockets.Inv.aborted {s : Sockets} (h : s.Inv cfg) (opened : Finset Int) :
    Sockets.Inv cfg { s with phase := .aborted, opened } :=
  ⟨h.control, fun hne => absurd rfl hne, h.idle⟩

theorem insert_toFinset {opened : Finset Int} {hds : List Int} {hd : Int} (hopened : opened = hds.toFinset) (hnodup : hds.Nodup)
    (hfresh : hd ∉ opened) : insert hd opened = (hd :: hds).toFinset ∧ (hd :: hds).Nodup := by
  subst hopened
  exact ⟨List.toFinset_cons.symm, List.nodup_cons.2 ⟨fun hmem => hfresh (List.mem_toFinset.2 hmem), hnodup⟩⟩

theorem Sockets.Inv.listen {s t : Sockets} {shd : Option Int} (h : s.Inv cfg) (hstep : s.listen shd = some t) :
    t.Inv cfg := by
  unfold Sockets.listen at hstep
  split at hstep
  · cases hstep
    exact h.aborted s.opened
  · next shd hphase =>
    obtain ⟨hopened, hnodup⟩ := h.opened (by rw [hphase]; exact ServerPhase.noConfusion)
    rw [Option.ite_none_left_eq_some] at hstep
    obtain ⟨hfresh, hstep⟩ := hstep
    cases hstep
    rw [Sockets.handles, hphase] at hopened hnodup
    exact ⟨h.control, fun _ => insert_toFinset hopened hnodup hfresh, h.idle⟩
  · cases hstep

theorem Sockets.Inv.bcastBootNotify {s t : Sockets} {chd : Option Int} {enough : Bool} (h : s.Inv cfg)
    (hstep : s.bcastBootNotify chd enough = some t) : t.Inv cfg := by
  unfold Sockets.bcastBootNotify at hstep
  split at hstep
  · cases hstep
    exact h.aborted s.opened
  · next shd chd hphase =>
    obtain ⟨hopened, hnodup⟩ := h.opened (by rw [hphase]; exact ServerPhase.noConfusion)
    rw [Option.ite_none_left_eq_some] at hstep
    obtain ⟨hfresh, hstep⟩ := hstep
    split at hstep
    · cases hstep
      rw [Sockets.handles, hphase] at hopened hnodup
      exact ⟨h.control, fun _ => ⟨(Finset.erase_insert hfresh).trans hopened, hnodup⟩, h.idle⟩
    · cases hstep
      exact h.aborted (insert chd s.opened)
  · cases hstep

theorem Sockets.Inv.accept {s t : Sockets} {ctlHd : Option Int} (h : s.Inv cfg) (hstep : s.accept ctlHd = some t) :
    t.Inv cfg := by
  unfold Sockets.accept at hstep
  split at hstep
  · cases hstep
    exact h
  · next shd hd hphase hnone =>
    obtain ⟨hopened, hnodup⟩ := h.opened (by rw [hphase]; exact ServerPhase.noConfusion)
    rw [Option.ite_none_left_eq_some] at hstep
    obtain ⟨hfresh, hstep⟩ := hstep
    cases hstep
    have hperm : (s.phase.handles ++ (hd :: s.control.handles)).Perm (hd :: (s.phase.handles ++ s.control.handles)) :=
      List.perm_middle
    rw [Sockets.handles, hnone] at hopened hnodup
    obtain ⟨hinsert, hcons⟩ := insert_toFinset hopened hnodup hfresh
    refine ⟨h.control, fun _ => ⟨hinsert.trans ?_, hperm.nodup_iff.2 hcons⟩, fun hne => ?_⟩
    · exact (List.toFinset_eq_of_perm _ _ hperm).symm
    · cases hne
  · cases hstep

theorem Sockets.Inv.step {s t : Sockets} {e : SockEvent} (h : s.Inv cfg) (hconnects : Connects s e)
    (hstep : s.step cfg e = some t) : t.Inv cfg := by
  cases e with
  | listen shd => exact h.listen hstep
  | notify chd enough => exact h.bcastBootNotify hstep
  | accept ctlHd => exact h.accept hstep
  | control i =>
    rw [Sockets.step, Option.ite_none_left_eq_some, not_or, not_or, not_and, Bool.not_eq_false, not_exists] at hstep
    obtain ⟨⟨hphase, hidle, hfresh⟩, hstep⟩ := hstep
    exact h.controlStep hphase hidle (fun hd hmem hopen => hfresh hd ⟨hmem, hopen⟩) hconnects hstep

theorem Sockets.Init.inv {s : Sockets} (h : s.Init cfg) : s.Inv cfg := by
  have hcontrol := Control.Inv.init h.control
  obtain ⟨-, hnum, -, hpc⟩ := h.control
  have hlive : s.control.table.live = [] := by rw [Table.live, hnum]; rfl
  have hheld : s.handles = [] := by
    rw [Sockets.handles, h.phase, h.ctlHd, Control.handles, hpc, hlive]
    rfl
  refine ⟨hcontrol, fun _ => ⟨?_, ?_⟩, fun _ => ?_⟩
  · rw [h.opened, hheld]
    rfl
  · rw [hheld]
    exact List.nodup_nil
  · rw [hpc]
    rfl

/-- **Where the server waits for a request, the open sockets are the listening one and those of the table, all distinct**, as long as every `pk_tcp_connect` succeeds. -/
theorem sockets_conserved {s : Sockets} {shd : Int} (hs : (sockets cfg).ReachableUnder Connects s)
    (hphase : s.phase = .serving shd) (hwait : s.ctlHd = none) :
    s.opened = (shd :: s.control.table.live.map Client.hd).toFinset ∧
      (shd :: s.control.table.live.map Client.hd).Nodup := by
  have h : s.Inv cfg := hs.invariant (fun _ => Sockets.Init.inv) fun _ _ _ h hconnects hstep => h.step hconnects hstep
  obtain ⟨hopened, hnodup⟩ := h.opened (by rw [hphase]; exact ServerPhase.noConfusion)
  have hheld : s.handles = shd :: s.control.table.live.map Client.hd := by
    rw [Sockets.handles, hphase, hwait, Control.handles, h.idle hwait]
    rfl
  rw [hheld] at hopened hnodup
  exact ⟨hopened, hnodup⟩

/-- After any `pk_tcp_connect` that fails, the server waits with a socket open that nobody holds. -/
theorem sockets_leaked {s t : Sockets} {shd hd : Int} (h : s.Inv cfg) (hphase : s.phase = .serving shd)
    (hfail : s.control.connectFails (.go (some hd) false) = true) (hstep : s.step cfg (.control (.go (some hd) false)) = some t) :
    t.phase = .serving shd ∧ t.ctlHd = none ∧ hd ∈ t.opened ∧ hd ∉ shd :: t.control.table.live.map Client.hd := by
  obtain ⟨hopened, -⟩ := h.opened (by rw [hphase]; exact ServerPhase.noConfusion)
  obtain ⟨proto, a, hpc, hproto⟩ : ∃ proto a, s.control.pc = .connect proto a ∧ protoOf proto = some .tcp := by
    rw [Control.connectFails] at hfail
    split at hfail
    · next proto a hpc => exact ⟨proto, a, hpc, of_decide_eq_true hfail⟩
    · cases hfail
  have hopens : s.control.opens (.go (some hd) false) = [hd] := by simp [Control.opens, hpc, hproto]
  have hcloses : s.control.closes cfg (.go (some hd) false) = [] := by simp [Control.closes, hpc]
  have hcontrol : s.control.step cfg (.go (some hd) false) = some ({ s.control with pc := .accept }, some .errTcpConnect) := by
    simp [Control.step, Control.go, hpc, hproto]
  rw [Sockets.step, Option.ite_none_left_eq_some, not_or, not_or, not_exists, hopens, Sockets.controlStep, hcontrol, hopens,
    hcloses] at hstep
  obtain ⟨⟨-, -, hfresh⟩, hstep⟩ := hstep
  have hnot : hd ∉ s.handles := by
    intro hmem
    refine hfresh hd ⟨List.mem_singleton_self hd, ?_⟩
    rw [hopened]
    exact List.mem_toFinset.2 hmem
  rw [Sockets.handles, List.mem_append, List.mem_append, not_or, not_or, hphase, Control.handles, hpc] at hnot
  cases hstep
  refine ⟨hphase, rfl, ?_, ?_⟩
  · simp [hnot.2.1]
  · rw [List.mem_cons, not_or]
    exact ⟨fun heq => hnot.1 (List.mem_singleton.2 heq), hnot.2.2⟩

def noSockets : Sockets := ⟨.start, emptyControl, none, ∅⟩

theorem noSockets_init : noSockets.Init oneClient := ⟨rfl, emptyControl_init, rfl, rfl⟩

/-- The server starts and serves a TCP subscription, whose `pk_tcp_connect` ends as given. -/
def tcpSubscription (connected : Bool) : List SockEvent :=
  [.listen (some 3), .notify (some 4) true, .accept (some 4), .control (localRequest ⟨Proto.tcp.bytes, 9, opSub⟩),
    .control (.go none false), .control (.go none false), .control (.go (some 5) connected)]

def insertTcp : List SockEvent := [.control (.go none false)]

def afterConnect : Sockets :=
  (System.runSteps (System.guarded Connects (Sockets.step oneClient)) noSockets (tcpSubscription true ++ insertTcp)).getD noSockets

theorem sockets_conserved_tcp : afterConnect.opened = [3, 5].toFinset :=
  (sockets_conserved (System.reachableUnder_runSteps (tcpSubscription true ++ insertTcp) (.init noSockets_init) rfl)
    (show afterConnect.phase = .serving 3 from rfl) rfl).1

def afterRefused : Sockets :=
  (System.runSteps (Sockets.step oneClient) noSockets (tcpSubscription false)).getD noSockets

/-- The socket 5 of the refused client stays open. -/
theorem not_sockets_conserved_refused : ¬ ∀ cfg s shd, (sockets cfg).Reachable s → s.phase = .serving shd →
    s.ctlHd = none → s.opened = (shd :: s.control.table.live.map Client.hd).toFinset := by
  intro h
  have hopened := h oneClient afterRefused 3 (System.reachable_runSteps (tcpSubscription false) (.init noSockets_init) rfl) rfl rfl
  have hmem : (5 : Int) ∈ afterRefused.opened := by decide
  rw [hopened] at hmem
  revert hmem
  decide

end Vedruino.Netlog
