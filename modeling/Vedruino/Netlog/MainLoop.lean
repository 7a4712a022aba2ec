import Vedruino.Netlog.Session
import Vedruino.Netlog.Stream

/-!
# A round of the client's main loop

`main_loop` goes through the sockets that `select` has found ready, one after another, while `socks` changes under it. A boot message drops the log connection that a later socket of the same round may be, and the handler of that socket catches an `OSError` only. The calls of `setsockopt`, the writes to `stdout` and `stderr` and `ctl_sub` return.
-/

namespace Vedruino.Netlog

/-- What `main_loop` raises; `exception` is the one for a socket closed by the server. -/
inductive Raised
  | osError | keyError | indexError | exception
  deriving DecidableEq, Repr

/-- The globals of `netlog.py`. A socket is named by the number of sockets made before it. -/
structure Receiver where
  /-- `socks['bcast']`. -/
  bcast : Nat
  /-- `socks['tcp_serv']` or `socks['udp']`. -/
  serv : Nat
  /-- `socks['tcp_log']`. -/
  tcpLog : Option Nat
  made : Nat
  boardInfo : BoardInfo
  log : LogClient
  deriving DecidableEq

/-- A ready socket with the results of the calls on it: what `recvfrom` or `recv` gets, whether `accept` succeeds, and the board that `ctl_sub` subscribes to. No bytes and no connection stand for an `OSError`. -/
structure Ready where
  sock : Nat
  recv : Option (List UInt8)
  accept : Bool
  board : BoardInfo
  deriving DecidableEq

namespace Receiver

variable (proto : Proto) (c : Receiver) (r : Ready)

/-- `socks.values()`. -/
def socks : List Nat := [c.bcast, c.serv] ++ c.tcpLog.toList

def handleBcast (bs : List UInt8) (board : BoardInfo) : Receiver :=
  match readBcast bs with
  | none => c
  | some b =>
    if BoardInfo.bcastFilter c.boardInfo b then
      match proto with
      | .tcp => { c with tcpLog := none, boardInfo := board }
      | .udp => { c with log := { c.log with udpPackCnt := 127 }, boardInfo := board }
    else c

/-- The body of the loop of `main_loop`. -/
def onReady : Except Raised Receiver :=
  if r.sock = c.bcast then
    match r.recv with
    | none => .error .osError
    | some bs => .ok (c.handleBcast proto (bs.take (magic.length + BoardInfo.size)) r.board)
  else
    match proto with
    | .tcp =>
      if r.sock = c.serv then
        if r.accept then .ok { c with tcpLog := c.tcpLog.or (some c.made), made := c.made + 1 } else .error .osError
      else
        match c.tcpLog with
        | none => .error .keyError
        | some s =>
          if r.sock = s then
            match r.recv with
            | none => .ok { c with tcpLog := none }
            | some [] => .error .exception
            | some bs => .ok { c with log := { c.log with stdout := c.log.stdout ++ bs.take recvMaxSize } }
          else .ok c
    | .udp =>
      if r.sock = c.serv then
        match r.recv with
        | none => .error .osError
        | some bs =>
          match c.log.mainLoop bs with
          | none => .error .indexError
          | some log => .ok { c with log }
      else .ok c

/-- A boot message that passes the filter. -/
def boots : Bool :=
  match r.recv.bind World.bcast with
  | none => false
  | some b => r.sock = c.bcast ∧ BoardInfo.bcastFilter c.boardInfo b

end Receiver

/-! ### The log connection -/

inductive LogEvent
  | accepted | ended | failed | dropped
  deriving DecidableEq, Repr

/-- What the results on a ready socket say about the log connection. -/
def Receiver.logEvent (proto : Proto) (c : Receiver) (r : Ready) : Option LogEvent :=
  if proto = .udp then none
  else if r.sock = c.bcast then if c.boots r then some .dropped else none
  else if r.sock = c.serv then if r.accept ∧ c.tcpLog = none then some .accepted else none
  else if c.tcpLog = some r.sock then
    if r.recv = none then some .failed else if r.recv = some [] then some .ended else none
  else none

/-- The client and what has happened to its log connections. -/
structure Watched where
  client : Receiver
  events : List LogEvent
  deriving DecidableEq

namespace Watched

def onReady (proto : Proto) (w : Watched) (r : Ready) : Except Raised Watched :=
  (w.client.onReady proto r).map fun c => ⟨c, w.events ++ (w.client.logEvent proto r).toList⟩

def mainLoop (proto : Proto) (w : Watched) (ready : List Ready) : Except Raised Watched :=
  ready.foldlM (onReady proto) w

/-- What `select` may return: some of the sockets, in the order in which it got them. -/
def Selected (w : Watched) (ready : List Ready) : Prop := (ready.map Ready.sock).Sublist w.client.socks

instance (w : Watched) (ready : List Ready) : Decidable (w.Selected ready) :=
  inferInstanceAs (Decidable (List.Sublist _ _))

def step (proto : Proto) (w : Watched) (ready : List Ready) : Option Watched :=
  if w.Selected ready then (w.mainLoop proto ready).toOption else none

/-- The client after `main` has subscribed. -/
def Init (w : Watched) : Prop :=
  w.client.bcast ≠ w.client.serv ∧ w.client.bcast < w.client.made ∧ w.client.serv < w.client.made ∧
    w.client.tcpLog = none ∧ w.client.log = LogClient.start ∧ w.events = []

/-- A log connection was accepted, and since then it neither ended nor failed nor was dropped. -/
def Connected (w : Watched) : Prop := w.events.getLast? = some .accepted

/-- `main_loop` handles the ready sockets without raising, and then knows whether it is connected. -/
def Survives (proto : Proto) (w : Watched) (ready : List Ready) : Prop :=
  ∃ w', w.mainLoop proto ready = .ok w' ∧ (w'.client.tcpLog.isSome ↔ w'.Connected)

end Watched

def netlogPy (proto : Proto) : System Watched (List Ready) := System.ofStep Watched.Init (Watched.step proto)

/-- The rounds that raise nothing. No call other than `recv` fails and no empty packet arrives. Where the log connection is ready, it has not ended; and if a boot message drops it before, then another connection is accepted between the two. -/
structure Calm (proto : Proto) (c : Receiver) (ready : List Ready) : Prop where
  bcast : ∀ r ∈ ready, r.sock = c.bcast → r.recv ≠ none
  serv : ∀ r ∈ ready, r.sock = c.serv → if proto = .tcp then r.accept = true else r.recv ≠ none ∧ r.recv ≠ some []
  ended : ∀ r ∈ ready, c.tcpLog = some r.sock → (∀ b ∈ ready, ¬ c.boots b) → r.recv ≠ some []
  dropped : ∀ r ∈ ready, c.tcpLog = some r.sock → ∀ b ∈ ready, c.boots b → ∃ s ∈ ready, s.sock = c.serv

/-! ### What a ready socket does -/

namespace Receiver

variable {proto : Proto} {c c' : Receiver} {r : Ready}

theorem boots_iff : c.boots r ↔ r.sock = c.bcast ∧ ∃ b ∈ r.recv.bind World.bcast, BoardInfo.bcastFilter c.boardInfo b := by
  rw [boots]
  split
  · next h => simp [h]
  · next b h => simp [h]

theorem handleBcast_eq {bs : List UInt8} (board : BoardInfo) (hsock : r.sock = c.bcast) (hrecv : r.recv = some bs) :
    ∃ board' log', c.handleBcast proto (bs.take (magic.length + BoardInfo.size)) board =
      { c with tcpLog := if proto = .tcp ∧ c.boots r then none else c.tcpLog, boardInfo := board', log := log' } := by
  rw [boots, hrecv, Option.bind_some, World.bcast]
  unfold handleBcast
  split
  · exact ⟨c.boardInfo, c.log, by simp⟩
  · next b _ =>
    by_cases hfilter : BoardInfo.bcastFilter c.boardInfo b = true
    · cases proto with
      | tcp => exact ⟨board, c.log, by simp [hfilter, hsock]⟩
      | udp => exact ⟨board, { c.log with udpPackCnt := 127 }, by simp [hfilter]⟩
    · exact ⟨c.boardInfo, c.log, by simp [hfilter]⟩

/-- What the loop can do with a ready socket, and what becomes of the log connection. -/
inductive Handles (proto : Proto) (c : Receiver) : Receiver → Option LogEvent → Prop
  | kept (boardInfo : BoardInfo) (log : LogClient) : Handles proto c { c with boardInfo, log } none
  | dropped (boardInfo : BoardInfo) (log : LogClient) : proto = .tcp →
      Handles proto c { c with tcpLog := none, boardInfo, log } (some .dropped)
  | accepted : proto = .tcp → c.tcpLog = none →
      Handles proto c { c with tcpLog := some c.made, made := c.made + 1 } (some .accepted)
  | ignored : c.tcpLog.isSome → Handles proto c { c with made := c.made + 1 } none
  | failed : proto = .tcp → Handles proto c { c with tcpLog := none } (some .failed)

theorem Handles.handleBcast {bs : List UInt8} (board : BoardInfo) (hsock : r.sock = c.bcast) (hrecv : r.recv = some bs) :
    c.Handles proto (c.handleBcast proto (bs.take (magic.length + BoardInfo.size)) board) (c.logEvent proto r) := by
  obtain ⟨board, log, heq⟩ := @handleBcast_eq proto _ _ _ board hsock hrecv
  rw [heq, logEvent, if_pos hsock]
  cases proto with
  | udp =>
    have hkept : Handles .udp c { c with boardInfo := board, log } none := .kept board log
    simpa using hkept
  | tcp =>
    by_cases hboots : c.boots r = true
    · have hdropped : Handles .tcp c { c with tcpLog := none, boardInfo := board, log } (some .dropped) :=
        .dropped board log rfl
      simpa [hboots] using hdropped
    · have hkept : Handles .tcp c { c with boardInfo := board, log } none := .kept board log
      simpa [hboots] using hkept

/-- A connection is taken where there is none, and otherwise left to itself. -/
theorem Handles.accept : c.Handles .tcp { c with tcpLog := c.tcpLog.or (some c.made), made := c.made + 1 }
    (if c.tcpLog = none then some .accepted else none) := by
  cases hlog : c.tcpLog with
  | none =>
    rw [if_pos rfl, Option.none_or]
    exact .accepted rfl hlog
  | some s =>
    have hignored : Handles .tcp c { c with made := c.made + 1 } none := .ignored (by simp [hlog])
    simpa [hlog] using hignored

/-- The socket `socks['udp']`, or one that the loop does not know. -/
theorem onReady_udp_cases (hbcast : r.sock ≠ c.bcast) (h : c.onReady .udp r = .ok c') :
    c.Handles .udp c' (c.logEvent .udp r) := by
  have hevent : c.logEvent .udp r = none := if_pos rfl
  rw [hevent]
  unfold onReady at h
  rw [if_neg hbcast] at h
  dsimp only at h
  split at h
  · split at h
    · cases h
    · split at h
      · cases h
      · cases h
        exact .kept _ _
  · cases h
    exact .kept _ _

private theorem onReady_tcp_cases (hbcast : r.sock ≠ c.bcast) (h : c.onReady .tcp r = .ok c') :
    c.Handles .tcp c' (c.logEvent .tcp r) := by
  rw [logEvent, if_neg (by simp), if_neg hbcast]
  unfold onReady at h
  rw [if_neg hbcast] at h
  dsimp only at h
  split at h
  · next hserv =>
    split at h
    · next haccept =>
      cases h
      rw [if_pos hserv]
      simpa [haccept] using Handles.accept (c := c)
    · cases h
  · next hserv =>
    rw [if_neg hserv]
    split at h
    · cases h
    · next s hlog =>
      split at h
      · next hsock =>
        rw [hlog, hsock, if_pos rfl]
        split at h
        · next hrecv =>
          cases h
          rw [if_pos hrecv]
          exact .failed rfl
        · cases h
        · next bs hnil hrecv =>
          cases h
          rw [hrecv, if_neg (by simp), if_neg (by simpa using hnil)]
          exact .kept _ _
      · next hsock =>
        cases h
        rw [hlog, if_neg (by simpa using Ne.symm hsock)]
        exact .kept _ _

private theorem onReady_cases (h : c.onReady proto r = .ok c') : c.Handles proto c' (c.logEvent proto r) := by
  by_cases hsock : r.sock = c.bcast
  · unfold onReady at h
    rw [if_pos hsock] at h
    split at h
    · cases h
    · next bs hrecv =>
      cases h
      exact .handleBcast r.board hsock hrecv
  · cases proto with
    | udp => exact onReady_udp_cases hsock h
    | tcp => exact onReady_tcp_cases hsock h

end Receiver

/-! ### Every round -/

namespace Watched

variable {proto : Proto} {w w' : Watched} {r : Ready} {ready : List Ready}

/-- The sockets are not the same, a UDP client has no log connection, and the client knows whether it is connected. -/
structure Inv (proto : Proto) (w : Watched) : Prop where
  ne : w.client.bcast ≠ w.client.serv
  bcast_lt : w.client.bcast < w.client.made
  serv_lt : w.client.serv < w.client.made
  tcpLog : ∀ s ∈ w.client.tcpLog, proto = .tcp ∧ s ≠ w.client.bcast ∧ s ≠ w.client.serv ∧ s < w.client.made
  connected : w.client.tcpLog.isSome ↔ w.Connected

theorem Inv.onReady (h : w.Inv proto) (hstep : w.onReady proto r = .ok w') :
    w'.Inv proto ∧ w'.client.bcast = w.client.bcast ∧ w'.client.serv = w.client.serv := by
  rw [Watched.onReady] at hstep
  cases hc : w.client.onReady proto r with
  | error e => simp [hc, Except.map] at hstep
  | ok c =>
    rw [hc] at hstep
    cases hstep
    have hlt := h.bcast_lt
    have hslt := h.serv_lt
    have hcases := Receiver.onReady_cases hc
    generalize w.client.logEvent proto r = e at hcases ⊢
    cases hcases with
    | kept => exact ⟨⟨h.ne, hlt, hslt, h.tcpLog, by simpa [Connected] using h.connected⟩, rfl, rfl⟩
    | dropped => exact ⟨⟨h.ne, hlt, hslt, by simp, by simp [Connected]⟩, rfl, rfl⟩
    | accepted htcp =>
      refine ⟨⟨h.ne, Nat.lt_succ_of_lt hlt, Nat.lt_succ_of_lt hslt, ?_, by simp [Connected]⟩, rfl, rfl⟩
      simpa using ⟨htcp, hlt.ne', hslt.ne'⟩
    | ignored =>
      refine ⟨⟨h.ne, Nat.lt_succ_of_lt hlt, Nat.lt_succ_of_lt hslt, ?_, by simpa [Connected] using h.connected⟩, rfl, rfl⟩
      intro s hs
      obtain ⟨htcp, hb, hserv, hs⟩ := h.tcpLog s hs
      exact ⟨htcp, hb, hserv, Nat.lt_succ_of_lt hs⟩
    | failed => exact ⟨⟨h.ne, hlt, hslt, by simp, by simp [Connected]⟩, rfl, rfl⟩

theorem Inv.mainLoop (h : w.Inv proto) (hrun : w.mainLoop proto ready = .ok w') : w'.Inv proto := by
  induction ready generalizing w with
  | nil =>
    cases hrun
    exact h
  | cons r ready ih =>
    rw [Watched.mainLoop, List.foldlM_cons] at hrun
    cases hr : w.onReady proto r with
    | error e => simp [hr, bind, Except.bind] at hrun
    | ok u =>
      rw [hr] at hrun
      exact ih (h.onReady hr).1 hrun

theorem Inv.init (h : w.Init) : w.Inv proto := by
  obtain ⟨hne, hbcast, hserv, hlog, -, hevents⟩ := h
  exact ⟨hne, hbcast, hserv, by simp [hlog], by simp [hlog, Connected, hevents]⟩

theorem inv_of_reachable (h : (netlogPy proto).Reachable w) : w.Inv proto := by
  refine h.invariant (fun _ => Inv.init) fun u l v hu _ hstep => ?_
  change Watched.step proto u l = some v at hstep
  rw [Watched.step, Option.ite_none_right_eq_some] at hstep
  cases hrun : u.mainLoop proto l with
  | error e => simp [hrun, Except.toOption] at hstep
  | ok t =>
    rw [hrun] at hstep
    cases hstep.2
    exact hu.mainLoop hrun

/-! ### When a round raises nothing -/

theorem exists_mainLoop_cons :
    (∃ w', w.mainLoop proto (r :: ready) = .ok w') ↔ ∃ u, w.onReady proto r = .ok u ∧ ∃ w', u.mainLoop proto ready = .ok w' := by
  rw [mainLoop, List.foldlM_cons]
  cases w.onReady proto r with
  | error e => simp [bind, Except.bind]
  | ok u => simp [bind, Except.bind, mainLoop]

theorem exists_onReady {P : Watched → Prop} : (∃ u, w.onReady proto r = .ok u ∧ P u) ↔
    ∃ c, w.client.onReady proto r = .ok c ∧ P ⟨c, w.events ++ (w.client.logEvent proto r).toList⟩ := by
  rw [onReady]
  cases w.client.onReady proto r with
  | error e => simp [Except.map]
  | ok c => simp [Except.map]

theorem survives_iff (h : w.Inv proto) : w.Survives proto ready ↔ ∃ w', w.mainLoop proto ready = .ok w' := by
  constructor
  · rintro ⟨w', hrun, -⟩
    exact ⟨w', hrun⟩
  · rintro ⟨w', hrun⟩
    exact ⟨w', hrun, (h.mainLoop hrun).connected⟩

private theorem onReady_tcpLog {c : Receiver} (hbcast : r.sock ≠ c.bcast) (hserv : r.sock ≠ c.serv) :
    (∃ c', c.onReady .tcp r = .ok c') ↔ c.tcpLog ≠ none ∧ (c.tcpLog = some r.sock → r.recv ≠ some []) := by
  unfold Receiver.onReady
  rw [if_neg hbcast]
  dsimp only
  rw [if_neg hserv]
  cases c.tcpLog with
  | none => simp
  | some s =>
    by_cases hs : r.sock = s
    · subst hs
      rcases r.recv with _ | _ | ⟨b, bs⟩ <;> simp
    · simp [hs, Ne.symm hs]

private theorem onReady_tcpServ {c : Receiver} {P : Receiver → Prop} (hbcast : r.sock ≠ c.bcast) (hserv : r.sock = c.serv) :
    (∃ c', c.onReady .tcp r = .ok c' ∧ P c') ↔
      r.accept = true ∧ P { c with tcpLog := c.tcpLog.or (some c.made), made := c.made + 1 } := by
  unfold Receiver.onReady
  rw [if_neg hbcast]
  dsimp only
  rw [if_pos hserv]
  by_cases haccept : r.accept = true <;> simp [haccept]

private theorem onReady_udp {c : Receiver} (hbcast : r.sock ≠ c.bcast) (hserv : r.sock = c.serv) :
    (∃ c', c.onReady .udp r = .ok c') ↔ r.recv ≠ none ∧ r.recv ≠ some [] := by
  unfold Receiver.onReady
  rw [if_neg hbcast]
  dsimp only
  rw [if_pos hserv]
  rcases r.recv with _ | _ | ⟨b, bs⟩
  · simp
  · simp [LogClient.mainLoop]
  · simp [LogClient.mainLoop, recvMaxSize]

private theorem onReady_bcast {c : Receiver} {P : Receiver → Prop} (hbcast : r.sock = c.bcast) :
    (∃ c', c.onReady proto r = .ok c' ∧ P c') ↔
      ∃ bs, r.recv = some bs ∧ P (c.handleBcast proto (bs.take (magic.length + BoardInfo.size)) r.board) := by
  unfold Receiver.onReady
  rw [if_pos hbcast]
  cases r.recv with
  | none => simp
  | some bs => simp

/-- What `Calm` asks of the socket that is `socks['tcp_serv']` or `socks['udp']`. -/
def ServOk (proto : Proto) (r : Ready) : Prop :=
  if proto = .tcp then r.accept = true else r.recv ≠ none ∧ r.recv ≠ some []

theorem exists_mainLoop_singleton : (∃ w', w.mainLoop proto [r] = .ok w') ↔ ∃ c, w.client.onReady proto r = .ok c := by
  rw [exists_mainLoop_cons, exists_onReady (P := fun u => ∃ w', u.mainLoop proto [] = .ok w')]
  exact exists_congr fun c => and_iff_left ⟨_, rfl⟩

/-- The sockets after the one for boot messages, where a log connection that was dropped may still be ready. -/
theorem exists_mainLoop_rest {rs rl : Option Ready} (hne : w.client.bcast ≠ w.client.serv)
    (hs : ∀ s ∈ rs, s.sock = w.client.serv)
    (hl : ∀ l ∈ rl, proto = .tcp ∧ l.sock ≠ w.client.bcast ∧ l.sock ≠ w.client.serv ∧ l.sock < w.client.made ∧
      ∀ t ∈ w.client.tcpLog, t = l.sock) :
    (∃ w', w.mainLoop proto (rs.toList ++ rl.toList) = .ok w') ↔
      (∀ s ∈ rs, ServOk proto s) ∧ ∀ l ∈ rl, if w.client.tcpLog = none then rs.isSome else l.recv ≠ some [] := by
  cases rl with
  | none =>
    cases rs with
    | none => simpa using ⟨w, rfl⟩
    | some s =>
      have hserv := hs s rfl
      have hbcast : s.sock ≠ w.client.bcast := fun h => hne (h.symm.trans hserv)
      simp only [Option.toList_some, Option.toList_none, List.append_nil, exists_mainLoop_singleton]
      cases proto with
      | tcp => simpa [ServOk] using onReady_tcpServ (P := fun _ => True) hbcast hserv
      | udp => simpa [ServOk] using onReady_udp hbcast hserv
  | some l =>
    obtain ⟨rfl, hlb, hls, hmade, htcpLog⟩ := hl l rfl
    cases rs with
    | none =>
      simp only [Option.toList_some, Option.toList_none, List.nil_append, exists_mainLoop_singleton, onReady_tcpLog hlb hls]
      cases hlog : w.client.tcpLog with
      | none => simp
      | some t => simp [htcpLog t hlog]
    | some s =>
      have hserv := hs s rfl
      have hbcast : s.sock ≠ w.client.bcast := fun h => hne (h.symm.trans hserv)
      have hafter := onReady_tcpLog (r := l)
        (c := { w.client with tcpLog := w.client.tcpLog.or (some w.client.made), made := w.client.made + 1 }) hlb hls
      rw [Option.toList_some, Option.toList_some, List.singleton_append, exists_mainLoop_cons,
        exists_onReady (P := fun u => ∃ w', u.mainLoop .tcp [l] = .ok w'),
        onReady_tcpServ (P := fun c => ∃ w', mainLoop .tcp ⟨c, _⟩ [l] = .ok w') hbcast hserv,
        exists_mainLoop_singleton, hafter]
      cases hlog : w.client.tcpLog with
      | none => simp [ServOk, hmade.ne']
      | some t => simp [ServOk, htcpLog t hlog]

private theorem split_sublist {x : Nat} {ys : List Nat} (h : (ready.map Ready.sock).Sublist (x :: ys)) :
    ∃ (first : Option Ready) (rest : List Ready), ready = first.toList ++ rest ∧ (∀ r ∈ first, r.sock = x) ∧
      (rest.map Ready.sock).Sublist ys := by
  cases ready with
  | nil => exact ⟨none, [], rfl, nofun, List.nil_sublist _⟩
  | cons r ready =>
    rw [List.map_cons] at h
    cases h with
    | cons _ h => exact ⟨none, r :: ready, rfl, nofun, h⟩
    | cons_cons _ h => exact ⟨some r, ready, rfl, by simp, h⟩

theorem Selected.split (h : w.Selected ready) : ∃ rb rs rl : Option Ready,
    ready = rb.toList ++ (rs.toList ++ rl.toList) ∧ (∀ b ∈ rb, b.sock = w.client.bcast) ∧
      (∀ s ∈ rs, s.sock = w.client.serv) ∧ ∀ l ∈ rl, w.client.tcpLog = some l.sock := by
  obtain ⟨rb, rest, rfl, hb, hrest⟩ := split_sublist h
  obtain ⟨rs, rest, rfl, hs, hrest⟩ := split_sublist hrest
  cases hlog : w.client.tcpLog with
  | none =>
    rw [hlog] at hrest
    obtain rfl : rest = [] := List.map_eq_nil_iff.1 (List.sublist_nil.1 hrest)
    exact ⟨rb, rs, none, rfl, hb, hs, nofun⟩
  | some t =>
    rw [hlog] at hrest
    obtain ⟨rl, rest, rfl, hl, hrest⟩ := split_sublist hrest
    obtain rfl : rest = [] := List.map_eq_nil_iff.1 (List.sublist_nil.1 hrest)
    refine ⟨rb, rs, rl, by rw [List.append_nil], hb, hs, fun l hmem => ?_⟩
    rw [hl l hmem]

/-- Which of the ready sockets it is. -/
theorem Inv.mem_ready {rb rs rl : Option Ready} (h : w.Inv proto) (hb : ∀ b ∈ rb, b.sock = w.client.bcast)
    (hs : ∀ s ∈ rs, s.sock = w.client.serv) (hl : ∀ l ∈ rl, w.client.tcpLog = some l.sock)
    (hr : r ∈ rb.toList ++ (rs.toList ++ rl.toList)) :
    (r.sock = w.client.bcast → r ∈ rb) ∧ (r.sock = w.client.serv → r ∈ rs) ∧ (w.client.tcpLog = some r.sock → r ∈ rl) := by
  simp only [List.mem_append, Option.mem_toList] at hr
  rcases hr with hr | hr | hr
  · refine ⟨fun _ => hr, fun hsock => absurd ((hb r hr).symm.trans hsock) h.ne, fun hsock => ?_⟩
    exact absurd (hb r hr) (h.tcpLog _ hsock).2.1
  · refine ⟨fun hsock => absurd (hsock.symm.trans (hs r hr)) h.ne, fun _ => hr, fun hsock => ?_⟩
    exact absurd (hs r hr) (h.tcpLog _ hsock).2.2.1
  · obtain ⟨-, hbcast, hserv, -⟩ := h.tcpLog _ (hl r hr)
    exact ⟨fun hsock => absurd hsock hbcast, fun hsock => absurd hsock hserv, fun _ => hr⟩

theorem calm_iff {rb rs rl : Option Ready} (h : w.Inv proto) (hb : ∀ b ∈ rb, b.sock = w.client.bcast)
    (hs : ∀ s ∈ rs, s.sock = w.client.serv) (hl : ∀ l ∈ rl, w.client.tcpLog = some l.sock) :
    Calm proto w.client (rb.toList ++ (rs.toList ++ rl.toList)) ↔ (∀ b ∈ rb, b.recv ≠ none) ∧ (∀ s ∈ rs, ServOk proto s) ∧
      ∀ l ∈ rl, if ∃ b ∈ rb, w.client.boots b then rs.isSome else l.recv ≠ some [] := by
  have hmem : ∀ r, r ∈ rb.toList ++ (rs.toList ++ rl.toList) ↔ r ∈ rb ∨ r ∈ rs ∨ r ∈ rl := by simp
  have hbcast : ∀ r ∈ rb.toList ++ (rs.toList ++ rl.toList), r.sock = w.client.bcast → r ∈ rb := fun _ hr =>
    (h.mem_ready hb hs hl hr).1
  have hserv : ∀ r ∈ rb.toList ++ (rs.toList ++ rl.toList), r.sock = w.client.serv → r ∈ rs := fun _ hr =>
    (h.mem_ready hb hs hl hr).2.1
  have htcpLog : ∀ r ∈ rb.toList ++ (rs.toList ++ rl.toList), w.client.tcpLog = some r.sock → r ∈ rl := fun _ hr =>
    (h.mem_ready hb hs hl hr).2.2
  constructor
  · intro hcalm
    refine ⟨fun b hmemb => hcalm.bcast b ((hmem b).2 (.inl hmemb)) (hb b hmemb),
      fun s hmems => hcalm.serv s ((hmem s).2 (.inr (.inl hmems))) (hs s hmems), fun l hmeml => ?_⟩
    have hmeml' := (hmem l).2 (.inr (.inr hmeml))
    split
    · next hboots =>
      obtain ⟨b, hmemb, hboots⟩ := hboots
      obtain ⟨s, hmems, hsock⟩ := hcalm.dropped l hmeml' (hl l hmeml) b ((hmem b).2 (.inl hmemb)) hboots
      exact Option.isSome_iff_exists.2 ⟨s, hserv s hmems hsock⟩
    · next hboots =>
      refine hcalm.ended l hmeml' (hl l hmeml) fun b hmemb hboot => hboots ⟨b, ?_, hboot⟩
      exact hbcast b hmemb (Receiver.boots_iff.1 hboot).1
  · rintro ⟨hcb, hcs, hcl⟩
    refine ⟨fun b hmemb hsock => hcb b (hbcast b hmemb hsock), fun s hmems hsock => hcs s (hserv s hmems hsock),
      fun l hmeml hsock hboots => ?_, fun l hmeml hsock b hmemb hboots => ?_⟩
    · have := hcl l (htcpLog l hmeml hsock)
      rwa [if_neg] at this
      rintro ⟨b, hmemb, hboot⟩
      exact hboots b ((hmem b).2 (.inl hmemb)) hboot
    · have := hcl l (htcpLog l hmeml hsock)
      rw [if_pos ⟨b, hbcast b hmemb (Receiver.boots_iff.1 hboots).1, hboots⟩, Option.isSome_iff_exists] at this
      obtain ⟨s, hmems⟩ := this
      exact ⟨s, (hmem s).2 (.inr (.inl hmems)), hs s hmems⟩

end Watched

/-- **From every state that the client can be in, a round is handled if and only if it is calm.** -/
theorem mainLoop_survives_iff {proto : Proto} {w : Watched} {ready : List Ready} (hw : (netlogPy proto).Reachable w)
    (hsel : w.Selected ready) : w.Survives proto ready ↔ Calm proto w.client ready := by
  have h := Watched.inv_of_reachable hw
  rw [Watched.survives_iff h]
  obtain ⟨rb, rs, rl, rfl, hb, hs, hl⟩ := hsel.split
  rw [Watched.calm_iff h hb hs hl]
  cases rb with
  | none =>
    rw [Option.toList_none, List.nil_append, Watched.exists_mainLoop_rest h.ne hs fun l hmeml => by
      obtain ⟨htcp, hlb, hls, hmade⟩ := h.tcpLog _ (hl l hmeml)
      exact ⟨htcp, hlb, hls, hmade, fun t ht => Option.some.inj (ht.symm.trans (hl l hmeml))⟩]
    have hnone : ∀ l ∈ rl, w.client.tcpLog ≠ none := fun l hmeml => by simp [hl l hmeml]
    simp +contextual [hnone]
  | some b =>
    rw [Option.toList_some, List.singleton_append, Watched.exists_mainLoop_cons,
      Watched.exists_onReady (P := fun u => ∃ w', u.mainLoop proto (rs.toList ++ rl.toList) = .ok w'),
      Watched.onReady_bcast (P := fun c => ∃ w', Watched.mainLoop proto ⟨c, _⟩ (rs.toList ++ rl.toList) = .ok w') (hb b rfl)]
    cases hrecv : b.recv with
    | none => simp [hrecv]
    | some bs =>
      obtain ⟨board, log, heq⟩ := Receiver.handleBcast_eq b.board (hb b rfl) hrecv
      simp only [Option.some.injEq, exists_eq_left']
      rw [heq, Watched.exists_mainLoop_rest (by exact h.ne) (by exact hs) fun l hmeml => by
        obtain ⟨htcp, hlb, hls, hmade⟩ := h.tcpLog _ (hl l hmeml)
        refine ⟨htcp, hlb, hls, hmade, fun t ht => ?_⟩
        rw [hl l hmeml] at ht
        split at ht
        · cases ht
        · exact (Option.some.inj ht).symm]
      have hlog : ∀ l ∈ rl, proto = .tcp ∧ w.client.tcpLog ≠ none := fun l hmeml =>
        ⟨(h.tcpLog _ (hl l hmeml)).1, by simp [hl l hmeml]⟩
      simp +contextual [hlog, hrecv]

def boardOf (session : UInt8) : BoardInfo := ⟨⟨List.replicate 6 1, rfl⟩, ⟨List.replicate 32 session, rfl⟩⟩

/-- The client after it has subscribed in the first boot of the board. -/
def subscribed : Watched := ⟨⟨0, 1, none, 2, boardOf 0, LogClient.start⟩, []⟩

theorem subscribed_init : subscribed.Init := ⟨Nat.zero_ne_one, Nat.zero_lt_two, Nat.one_lt_two, rfl, rfl, rfl⟩

/-- The same client with the connection of the board. -/
def listening : Watched := ⟨⟨0, 1, some 2, 3, boardOf 0, LogClient.start⟩, [.accepted]⟩

def connects : Ready := ⟨1, none, true, boardOf 0⟩

theorem listening_reachable : (netlogPy .tcp).Reachable listening :=
  System.reachable_runSteps [[connects]] (.init subscribed_init) rfl

/-- A round with a boot message, a new connection, and bytes on the one that the message drops. -/
def restarts : List Ready :=
  [⟨0, some (bootPack (boardOf 1)), false, boardOf 1⟩, connects, ⟨2, some [0x68], false, boardOf 0⟩]

theorem mainLoop_survives_restarts : listening.Survives .tcp restarts :=
  (mainLoop_survives_iff listening_reachable (by decide)).2
    ⟨by decide, by decide, by decide, fun _ _ _ _ _ _ => ⟨connects, by decide, rfl⟩⟩

/-- The board closes the log connection. -/
theorem not_mainLoop_survives : ¬ ∀ proto w ready, (netlogPy proto).Reachable w → w.Selected ready → w.Survives proto ready := by
  intro h
  obtain ⟨w', hrun, -⟩ := h .tcp listening [⟨2, some [], false, boardOf 0⟩] listening_reachable (by decide)
  have hraise : listening.mainLoop .tcp [⟨2, some [], false, boardOf 0⟩] = .error .exception := rfl
  rw [hraise] at hrun
  cases hrun

end Vedruino.Netlog
