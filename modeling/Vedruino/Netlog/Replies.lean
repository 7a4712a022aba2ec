import Mathlib.Data.List.Forall2
import Vedruino.Netlog.BoardInfo

/-!
# The replies of the control server

Each round of `ctl_server_task` accepts a connection, handles its request and replies. Its locals are new in every round, and the label `err_cont` is reached from a failed `pk_tcp_accept` too, where neither the handle is a socket nor `cl_addr_str` and `err_msg` have a value.
-/

namespace Vedruino.Netlog

open Ip

/-- `PK_SOCKERR`. -/
def sockErr : Int := -1

inductive CtlOp
  | send (hd : Int) (bs : List UInt8)
  | close (hd : Int)
  /-- A use of `cl_addr_str` or `err_msg`, with its value where the round has assigned one. -/
  | read (v : Option (List Char))
  deriving DecidableEq, Repr

/-- The socket of a call. -/
def CtlOp.sock? : CtlOp → Option Int
  | .send hd _ | .close hd => some hd
  | .read _ => none

def CtlOp.sent : CtlOp → List UInt8
  | .send _ bs => bs
  | _ => []

/-- What comes from outside in a round: the connection and its address, what `ctl_handle_req` returns, and the string that `err_msg` happens to point to before it is assigned. -/
structure CtlRound where
  accept : Option (Int × IpAddr)
  resp : Resp
  stale : List Char
  deriving DecidableEq, Repr

/-- The locals that `err_cont` uses. -/
structure CtlLocals where
  ctlHd : Int
  clAddrStr : Option (List Char)
  errMsg : Option (List Char)

/-- From `err_cont` on; the message is read for the log line, for `strlen` and for the send. -/
def errCont (stale : List Char) (l : CtlLocals) : List CtlOp :=
  [.read l.clAddrStr, .read l.errMsg, .send l.ctlHd (ascii ['-']), .read l.errMsg, .read l.errMsg,
    .send l.ctlHd (ascii (l.errMsg.getD stale)), .close l.ctlHd]

def okIgnored (b : BoardInfo) (hd : Int) : List CtlOp :=
  [.send hd (ascii ['+']), .send hd b.macAddr.toList, .send hd b.sessionId.toList, .close hd]

/-- The body of the loop of `ctl_server_task`. -/
def ctlRound (b : BoardInfo) (it : CtlRound) : List CtlOp :=
  match it.accept with
  | none => errCont it.stale ⟨sockErr, none, none⟩
  | some (ctlHd, ctlAddr) =>
    let clAddrStr := pkIpAddr2str ctlAddr
    .read clAddrStr ::
      match it.resp with
      | .errInternal => errCont it.stale ⟨ctlHd, clAddrStr, "internal error".toList⟩
      | .errMalformedReq => errCont it.stale ⟨ctlHd, clAddrStr, "malformed request".toList⟩
      | .errClientsLimit => errCont it.stale ⟨ctlHd, clAddrStr, "clients limit".toList⟩
      | .errTcpConnect => errCont it.stale ⟨ctlHd, clAddrStr, "tcp connect error".toList⟩
      | .ok => .read clAddrStr :: okIgnored b ctlHd
      | .okIgnored => okIgnored b ctlHd

/-- What the task does in each of its rounds. -/
def ctlServerTask (b : BoardInfo) : List CtlRound → List (List CtlOp)
  | [] => []
  | it :: its => ctlRound b it :: ctlServerTask b its

/-- A connection gets the response as its only bytes and is closed once, after them; without a connection no socket is used. Nothing is read that the round has not assigned. -/
structure Replied (b : BoardInfo) (it : CtlRound) (ops : List CtlOp) : Prop where
  assigned : .read none ∉ ops
  sockets : ∀ s ∈ ops.filterMap CtlOp.sock?, ∃ a, it.accept = some (s, a)
  reply : ∀ hd a, it.accept = some (hd, a) → ops.flatMap CtlOp.sent = ctlResp b it.resp
  closed : ∀ hd a, it.accept = some (hd, a) → ops.count (.close hd) = 1 ∧ ops.getLast? = some (.close hd)

variable {b : BoardInfo} {it : CtlRound} {its : List CtlRound}

theorem not_replied_of_accept (h : it.accept = none) : ¬ Replied b it (ctlRound b it) := by
  intro hreply
  rw [ctlRound, h] at hreply
  exact hreply.assigned (List.mem_cons_self ..)

/-- The error message that is assigned is the one of the response. -/
theorem ctlRound_eq {hd : Int} {a : IpAddr} (h : it.accept = some (hd, a)) : ctlRound b it = .read (pkIpAddr2str a) ::
    match it.resp with
    | .ok => .read (pkIpAddr2str a) :: okIgnored b hd
    | .okIgnored => okIgnored b hd
    | r => errCont it.stale ⟨hd, pkIpAddr2str a, r.errMsg⟩ := by
  rw [ctlRound, h]
  cases it.resp <;> rfl

private theorem replied_errCont {hd : Int} {a : IpAddr} (h : it.accept = some (hd, a)) (hstatus : it.resp.status = '-') :
    Replied b it (.read (pkIpAddr2str a) :: errCont it.stale ⟨hd, pkIpAddr2str a, it.resp.errMsg⟩) where
  assigned := by simp [errCont]
  sockets := by
    simp [errCont, CtlOp.sock?, h]
  reply := by
    intro hd' a' h'
    rw [ctlResp, hstatus, if_neg (by decide)]
    simp [errCont, CtlOp.sent]
  closed := by
    intro hd' a' h'
    obtain ⟨rfl, rfl⟩ := Prod.mk.inj (Option.some.inj (h.symm.trans h'))
    simp [errCont]

private theorem replied_okIgnored {hd : Int} {a : IpAddr} {reads : List CtlOp} (h : it.accept = some (hd, a))
    (hstatus : it.resp.status = '+') (hreads : ∀ op ∈ reads, op = .read (pkIpAddr2str a)) :
    Replied b it (reads ++ okIgnored b hd) where
  assigned := by
    intro hmem
    rcases List.mem_append.1 hmem with hmem | hmem
    · cases hreads _ hmem
    · simp [okIgnored] at hmem
  sockets := by
    intro s hs
    rw [List.filterMap_append, List.filterMap_eq_nil_iff.2 fun op hop => by rw [hreads op hop]; rfl] at hs
    obtain rfl : s = hd := by simpa [okIgnored, CtlOp.sock?] using hs
    exact ⟨a, h⟩
  reply := by
    intro hd' a' h'
    rw [ctlResp, hstatus, if_pos rfl, List.flatMap_append, List.flatMap_eq_nil_iff.2 fun op hop => by rw [hreads op hop]; rfl]
    simp [okIgnored, CtlOp.sent, BoardInfo.bytes]
  closed := by
    intro hd' a' h'
    obtain ⟨rfl, rfl⟩ := Prod.mk.inj (Option.some.inj (h.symm.trans h'))
    rw [List.count_append, List.count_eq_zero.2 fun hmem => by cases hreads _ hmem]
    simp [okIgnored]

private theorem replied_ctlRound (h : it.accept.isSome) : Replied b it (ctlRound b it) := by
  obtain ⟨⟨hd, a⟩, h⟩ := Option.isSome_iff_exists.1 h
  rw [ctlRound_eq h]
  have hreads : ∀ n, ∀ op ∈ List.replicate n (CtlOp.read (pkIpAddr2str a)), op = .read (pkIpAddr2str a) :=
    fun n op => List.eq_of_mem_replicate
  cases hresp : it.resp with
  | ok => exact replied_okIgnored h (by rw [hresp]; rfl) (hreads 2)
  | okIgnored => exact replied_okIgnored h (by rw [hresp]; rfl) (hreads 1)
  | errInternal | errMalformedReq | errClientsLimit | errTcpConnect =>
    have herr := replied_errCont (b := b) h (by rw [hresp]; rfl)
    rwa [hresp] at herr

/-- **In every run each connection gets its reply and nothing unassigned is read if and only if no accept fails.** -/
theorem ctlServerTask_replies_iff (b : BoardInfo) (its : List CtlRound) :
    List.Forall₂ (Replied b) its (ctlServerTask b its) ↔ ∀ it ∈ its, it.accept.isSome := by
  induction its with
  | nil => simp [ctlServerTask]
  | cons it its ih =>
    rw [ctlServerTask, List.forall₂_cons, ih, List.forall_mem_cons]
    refine and_congr_left fun _ => ⟨fun hreply => ?_, replied_ctlRound⟩
    rw [← Option.ne_none_iff_isSome]
    exact fun hnone => not_replied_of_accept hnone hreply

/-- After a failed accept the task sends an unassigned message to no socket. -/
theorem not_ctlServerTask_replies : ¬ ∀ b its, List.Forall₂ (Replied b) its (ctlServerTask b its) := by
  intro h
  have hround := h ⟨List.Vector.replicate _ 0, List.Vector.replicate _ 0⟩ [⟨none, .ok, []⟩]
  rw [ctlServerTask, List.forall₂_cons] at hround
  exact not_replied_of_accept rfl hround.1

end Vedruino.Netlog
