import Vedruino.Boot.Programs
import Vedruino.Lib.Runs

/-!
# The control task and its own log lines

With `stdout` replaced by `pk_netlog_init`, a line that the control task logs is flushed by the task itself, which takes `clients_mutex`. The sections of `ctl_sub` log nothing, and within a flush `stdout` is `pk_log_uartout`. `ctl_unsub` calls `del_client` in its section, and `pk_sock_close` logs a failed `close`.
-/

namespace Vedruino.Netlog.Reentry

open Prog

/-- `netlog` says that `stdout` is `netlogout` for the caller, else it is `pk_log_uartout`. -/
inductive CtlAct
  /-- `CLIENTS_MUX_TAKE`. -/
  | take
  | give
  /-- A line on `stdout`. -/
  | line (netlog : Bool)
  /-- `close` in `pk_sock_close`, and whether it succeeds. -/
  | closed (netlog ok : Bool)
  deriving DecidableEq, Repr

abbrev CtlCode := Prog CtlAct

/-! ### netlog.c -/

section

-- `CONF_LOG_LIB_LEVEL`
variable (level : Int)

/-- A log line while `stdout` is `pk_log_uartout`. -/
def uartLine : Boot.Act → CtlCode Unit
  | .log _ lvl => if lvl.num ≤ level then perform (.line false) else return
  | _ => return

/-- `pk_sock_close`, with what it does to log an error. -/
def pkSockClose (netlog : Bool) (pklog : Boot.Act → CtlCode Unit) : CtlCode Unit := do
  let ok ← succeeds
  perform (.closed netlog ok)
  if ok then return
  else (Boot.pklog .e).expand pklog

/-- The outcome is the number of sends. -/
def flushWithShstack : CtlCode Unit := do
  times (← outcome) do
    if ← Boot.pkTcpSend.expand (uartLine level) then return
    else
      (Boot.pklog .e).expand (uartLine level)
      pkSockClose false (uartLine level)

def stdoutFlush : CtlCode Unit := do
  perform .take
  flushWithShstack level
  perform .give

/-- A log line of the control task. The outcome is how often more it is flushed, for a long line or a backtrace. -/
def netlogLine : Boot.Act → CtlCode Unit
  | .log _ lvl =>
    if lvl.num ≤ level then do
      times ((← outcome) + 1) do
        perform (.line true)
        stdoutFlush level
    else return
  | _ => return

/-- What the task does without `clients_mutex`, with its log lines. -/
def logged {α : Type} (p : Boot.Code α) : CtlCode α := p.expand (netlogLine level)

/-- A search of the table in a section of its own. -/
def search : CtlCode Bool := do
  perform .take
  let found ← succeeds
  perform .give
  return found

def insertClient : CtlCode Netlog.Resp := do
  perform .take
  Prog.assert
  perform .give
  return .ok

/-- The outcome is the protocol. -/
def ctlSub : CtlCode Netlog.Resp := do
  if ← search then
    logged level (Boot.pklog .w)
    return .okIgnored
  else if ← search then
    match ← outcome with
    | 0 =>
      if ← logged level Boot.pkUdpClient then insertClient
      else return .errInternal
    | 1 =>
      if ← logged level Boot.pkTcpClient then
        if ← logged level Boot.pkTcpConnect then insertClient
        else return .errTcpConnect
      else return .errInternal
    | _ => return .errMalformedReq
  else return .errClientsLimit

def ctlUnsub : CtlCode Netlog.Resp := do
  perform .take
  if ← succeeds then
    pkSockClose true (netlogLine level)
    perform .give
    return .ok
  else
    perform .give
    logged level (Boot.pklog .w)
    return .okIgnored

/-- The four fields of a request are received; the outcome is the operation. -/
def ctlHandleReq : CtlCode Netlog.Resp := do
  if ← logged level Boot.pkTcpRecvn then
    if ← succeeds then
      if ← logged level Boot.pkTcpRecvn then
        if ← logged level Boot.pkTcpRecvn then
          if ← logged level Boot.pkTcpRecvn then
            match ← outcome with
            | 0 => ctlSub level
            | 1 => ctlUnsub level
            | _ => return .errMalformedReq
          else return .errMalformedReq
        else return .errMalformedReq
      else return .errMalformedReq
    else return .errMalformedReq
  else return .errMalformedReq

/-- The loop of `ctl_server_task`. -/
def ctlServerLoop : CtlCode Unit := do
  logged level (Boot.pklog .d)
  if ← logged level Boot.pkTcpAccept then
    logged level (Boot.pklog .d)
    match ← ctlHandleReq level with
    | .ok =>
      logged level (times 3 (Boot.pklog .i))
      times (← outcome) (logged level (Boot.pklog .i))
      logged level Boot.ctlReplyOk
    | .okIgnored => logged level Boot.ctlReplyOk
    | _ => logged level Boot.ctlReplyErr
  else logged level Boot.ctlReplyErr

end

/-! ### Runs -/

/-- The control task, and whether it holds `clients_mutex`. -/
structure CtlTask where
  code : CtlCode Unit
  held : Bool

namespace CtlTask

/-- A step, with the outcome where the task makes a call. A task that takes the mutex that it holds waits forever. -/
def step (level : Int) (s : CtlTask) (n : Nat) : Option CtlTask :=
  match s.code with
  | .pure _ => some { s with code := ctlServerLoop level }
  | .act .take p => if s.held then none else some ⟨p, true⟩
  | .act .give p => some ⟨p, false⟩
  | .act _ p => some { s with code := p }
  | .choose k => some { s with code := k n }
  | .halt => none

def start (level : Int) : CtlTask := ⟨logged level Boot.ctlServerTask, false⟩

/-- The task comes to a line on `stdout`, or to taking the mutex, while it holds it. -/
def Reenters (s : CtlTask) : Prop :=
  s.held = true ∧ ∃ p, s.code = .act (.line true) p ∨ s.code = .act .take p

/-- A `close` has failed in the section of `ctl_unsub`. -/
def closeFails (s : CtlTask) : Bool :=
  match s.code with
  | .act (.closed true false) _ => s.held
  | _ => false

/-- No `close` of `ctl_unsub` fails, or errors are not logged. -/
def Guard (level : Int) (s : CtlTask) (_ : Nat) : Prop := s.closeFails = true → level < 1

instance (level : Int) (s : CtlTask) : DecidablePred (s.Guard level) := fun _ => inferInstanceAs (Decidable (_ → _))

end CtlTask

def controlTask (level : Int) : System CtlTask Nat :=
  System.ofStep (fun s => s = CtlTask.start level) (CtlTask.step level)

/-! ### The mutex along a program -/

/-- What the task may do while it holds the mutex or not. `none` is a state after a failed `close` of `ctl_unsub`. -/
def Allowed : Option Bool → CtlAct → Prop
  | some held, .take | some held, .line true => held = false
  | some held, .give => held = true
  | _, _ => True

def nextHeld (level : Int) : Option Bool → CtlAct → Option Bool
  | some _, .take => some true
  | some _, .give => some false
  | some held, .closed true false => if held = true ∧ 1 ≤ level then none else some held
  | s, _ => s

abbrev lockWp (level : Int) {α : Type} (p : CtlCode α) (Q : α → Option Bool → Prop) (s : Option Bool) : Prop :=
  p.wp Allowed (nextHeld level) Q s

/-- The program may run without the mutex and then ends without it. -/
def Balanced (level : Int) {α : Type} (p : CtlCode α) : Prop :=
  lockWp level p (fun _ t => ∀ held ∈ t, held = false) (some false)

section

variable {level : Int} {α β : Type} {p : CtlCode α}

theorem lockWp_none {Q : α → Option Bool → Prop} (hQ : ∀ a, Q a none) : lockWp level p Q none := by
  induction p with
  | pure a => exact hQ a
  | act x p ih => exact ⟨trivial, ih⟩
  | choose k ih => exact ih
  | halt => trivial

theorem free : ∀ held ∈ some false, held = false := by simp

theorem balanced_pure (a : α) : Balanced level (return a) := free

theorem Balanced.bind {f : α → CtlCode β} (hp : Balanced level p) (hf : ∀ a, Balanced level (f a)) :
    Balanced level (p >>= f) := by
  refine wp_bind.2 (wp_mono hp fun a t ht => ?_)
  cases t with
  | none => exact lockWp_none fun _ _ h => nomatch h
  | some held =>
    rw [ht held rfl]
    exact hf a

theorem Balanced.branch {p : CtlCode Bool} {q r : CtlCode β} (hp : Balanced level p) (hq : Balanced level q)
    (hr : Balanced level r) : Balanced level (do if ← p then q else r) := by
  refine hp.bind fun b => ?_
  cases b with
  | true => exact hq
  | false => exact hr

theorem Balanced.outcome {k : Nat → CtlCode β} (hk : ∀ n, Balanced level (k n)) : Balanced level (Prog.outcome >>= k) :=
  fun n => hk n

theorem Balanced.times {q : CtlCode Unit} (hq : Balanced level q) (n : Nat) : Balanced level (times n q) := by
  induction n with
  | zero => exact balanced_pure ()
  | succ n ih => exact hq.bind fun _ => ih

theorem Balanced.expand {f : Boot.Act → CtlCode Unit} (hf : ∀ x, Balanced level (f x)) (p : Boot.Code α) :
    Balanced level (p.expand f) := by
  induction p with
  | pure a => exact balanced_pure a
  | act x p ih => exact (hf x).bind fun _ => ih
  | choose k ih => exact ih
  | halt => trivial

theorem balanced_succeeds : Balanced level succeeds := fun _ => free

theorem lockWp_take {Q : α → Option Bool → Prop} (h : lockWp level p Q (some true)) :
    lockWp level (do perform .take; p) Q (some false) := ⟨rfl, h⟩

theorem lockWp_give {Q : α → Option Bool → Prop} (h : lockWp level p Q (some false)) :
    lockWp level (do perform .give; p) Q (some true) := ⟨rfl, h⟩

/-! ### The control task keeps the mutex -/

/-- What a flush does between taking the mutex and giving it back. -/
def FlushAct : CtlAct → Prop
  | .line netlog | .closed netlog _ => netlog = false
  | _ => False

theorem uartLine_all (x : Boot.Act) : (uartLine level x).All FlushAct := by
  cases x with
  | log src lvl =>
    rw [uartLine]
    split
    · exact ⟨rfl, trivial⟩
    · trivial
  | _ => trivial

theorem flushWithShstack_all : (flushWithShstack level).All FlushAct := by
  have hclose : (pkSockClose false (uartLine level)).All FlushAct := by
    refine all_succeeds.bind fun ok => all_seq ⟨rfl, trivial⟩ ?_
    cases ok with
    | true => trivial
    | false => exact All.expand uartLine_all _
  refine all_outcome fun n => All.times ?_ n
  exact all_branch (All.expand uartLine_all _) trivial (all_seq (All.expand uartLine_all _) hclose)

theorem FlushAct.allowed {x : CtlAct} (h : FlushAct x) : Allowed (some true) x ∧ nextHeld level (some true) x = some true := by
  cases x with
  | line netlog =>
    obtain rfl : netlog = false := h
    exact ⟨trivial, rfl⟩
  | closed netlog ok =>
    obtain rfl : netlog = false := h
    cases ok <;> exact ⟨trivial, rfl⟩
  | _ => exact h.elim

theorem balanced_stdoutFlush : Balanced level (stdoutFlush level) := by
  refine lockWp_take (wp_bind.2 (wp_of_all flushWithShstack_all (fun x hx => FlushAct.allowed hx) fun _ => ?_))
  exact ⟨rfl, free⟩

theorem balanced_netlogLine (x : Boot.Act) : Balanced level (netlogLine level x) := by
  cases x with
  | log src lvl =>
    rw [netlogLine]
    split
    · refine Balanced.outcome fun n => Balanced.times ?_ _
      exact ⟨rfl, balanced_stdoutFlush⟩
    · exact balanced_pure ()
  | _ => exact balanced_pure ()

theorem balanced_logged (p : Boot.Code α) : Balanced level (logged level p) := Balanced.expand balanced_netlogLine p

/-- In the section of `ctl_unsub` an error that is logged is what the guard excludes. -/
theorem lockWp_pkSockClose {Q : Unit → Option Bool → Prop} (hheld : Q () (some true)) (hnone : Q () none) :
    lockWp level (pkSockClose true (netlogLine level)) Q (some true) := by
  refine wp_bind.2 (wp_succeeds.2 ⟨⟨trivial, ?_⟩, trivial, hheld⟩)
  show lockWp level ((Boot.pklog .e).expand (netlogLine level)) Q (nextHeld level (some true) (.closed true false))
  rw [nextHeld]
  by_cases hlevel : 1 ≤ level
  · rw [if_pos ⟨rfl, hlevel⟩]
    exact lockWp_none fun _ => hnone
  · have hskip : netlogLine level (.log .lib .e) = Pure.pure () := if_neg hlevel
    rw [if_neg fun h => hlevel h.2]
    show lockWp level ((netlogLine level (.log .lib .e)).bind _) Q (some true)
    rw [hskip]
    exact hheld

theorem balanced_search : Balanced level search :=
  lockWp_take (wp_bind.2 (wp_succeeds.2 ⟨lockWp_give free, lockWp_give free⟩))

theorem balanced_insertClient : Balanced level insertClient :=
  lockWp_take (wp_bind.2 (wp_assert.2 (lockWp_give free)))

theorem balanced_ctlSub : Balanced level (ctlSub level) := by
  refine balanced_search.branch ((balanced_logged _).bind fun _ => balanced_pure _) ?_
  refine balanced_search.branch (Balanced.outcome fun n => ?_) (balanced_pure _)
  split
  · exact (balanced_logged _).branch balanced_insertClient (balanced_pure _)
  · exact (balanced_logged _).branch ((balanced_logged _).branch balanced_insertClient (balanced_pure _)) (balanced_pure _)
  · exact balanced_pure _

theorem balanced_ctlUnsub : Balanced level (ctlUnsub level) := by
  refine lockWp_take (wp_bind.2 (wp_succeeds.2 ⟨lockWp_give ?_, ?_⟩))
  · exact (balanced_logged _).bind fun _ => balanced_pure _
  · refine wp_bind.2 (lockWp_pkSockClose (lockWp_give free) (lockWp_none ?_))
    intro _ _ h
    cases h

theorem balanced_ctlHandleReq : Balanced level (ctlHandleReq level) := by
  refine (balanced_logged _).branch ?_ (balanced_pure _)
  refine balanced_succeeds.branch ?_ (balanced_pure _)
  refine (balanced_logged _).branch ?_ (balanced_pure _)
  refine (balanced_logged _).branch ?_ (balanced_pure _)
  refine (balanced_logged _).branch (Balanced.outcome fun n => ?_) (balanced_pure _)
  split
  · exact balanced_ctlSub
  · exact balanced_ctlUnsub
  · exact balanced_pure _

theorem balanced_ctlServerLoop : Balanced level (ctlServerLoop level) := by
  refine (balanced_logged _).bind fun _ => (balanced_logged _).branch ?_ (balanced_logged _)
  refine (balanced_logged _).bind fun _ => balanced_ctlHandleReq.bind fun resp => ?_
  split
  · refine (balanced_logged _).bind fun _ => Balanced.outcome fun n => ?_
    exact (Balanced.times (balanced_logged _) n).bind fun _ => balanced_logged _
  · exact balanced_logged _
  · exact balanced_logged _

/-! ### Every run -/

/-- What is left of the code may run, and the loop starts without the mutex. -/
def CtlTask.Inv (level : Int) (s : CtlTask) : Prop :=
  lockWp level s.code (fun _ t => ∀ held ∈ t, held = false) (some s.held)

variable {s t : CtlTask} {n : Nat}

/-- What is left after an act that changes the mutex as the step does. -/
theorem CtlTask.Inv.act {x : CtlAct} {p : CtlCode Unit} {b held : Bool} (h : CtlTask.Inv level ⟨.act x p, b⟩)
    (hnext : nextHeld level (some b) x = some held) : CtlTask.Inv level ⟨p, held⟩ := by
  have hrest := h.2
  rw [hnext] at hrest
  exact hrest

theorem CtlTask.Inv.step (h : s.Inv level) (hguard : s.Guard level n) (hstep : s.step level n = some t) : t.Inv level := by
  obtain ⟨code, held⟩ := s
  cases code with
  | pure a =>
    cases hstep
    obtain rfl : held = false := h held rfl
    exact balanced_ctlServerLoop
  | act x p =>
    cases x with
    | take =>
      rw [CtlTask.step, Option.ite_none_left_eq_some] at hstep
      cases hstep.2
      exact h.act rfl
    | give =>
      cases hstep
      exact h.act rfl
    | line netlog =>
      cases hstep
      exact h.act rfl
    | closed netlog ok =>
      cases hstep
      refine h.act ?_
      unfold nextHeld
      split
      · next hx => cases hx
      · next hx => cases hx
      · next hx =>
        cases hx
        next heq =>
        cases heq
        exact if_neg fun hlevel => absurd (hguard hlevel.1) (Int.not_lt.2 hlevel.2)
      · rfl
  | choose k =>
    cases hstep
    exact h n
  | halt => cases hstep

theorem CtlTask.Inv.not_reenters (h : s.Inv level) : ¬ s.Reenters := by
  obtain ⟨code, held⟩ := s
  rintro ⟨hheld, p, hcode | hcode⟩
  · cases hheld
    cases hcode
    cases h.1
  · cases hheld
    cases hcode
    cases h.1

end

/-- **In every run in which no `close` of `ctl_unsub` fails, the control task logs nothing while it holds `clients_mutex` and never waits for itself.** -/
theorem controlTask_never_reenters {level : Int} {s : CtlTask}
    (hs : (controlTask level).ReachableUnder (CtlTask.Guard level) s) : ¬ s.Reenters := by
  have hinv : s.Inv level := hs.invariant (fun u hu => by rw [hu]; exact balanced_logged _)
    fun _ _ _ h hguard hstep => h.step hguard hstep
  exact hinv.not_reenters

/-- The outcomes of the start and of the calls that receive a request. -/
def booted : List Nat := [1, 1, 1, 1, 0, 1, 0, 1, 0, 1, 0, 1, 0, 1, 1, 0]

def request : List Nat := List.replicate 14 1

/-- A UDP client subscribes, and a request to unsubscribe it comes to the `close` of `del_client`. -/
def unsubscribing : List Nat :=
  booted ++ request ++ [0, 0, 0, 0, 0, 1, 0, 0, 1, 0, 1, 0, 0, 0, 1, 0, 1, 0, 1, 1, 0] ++ request ++ [1, 0, 1]

theorem controlTask_never_reenters_closing :
    ∃ s, (controlTask 1).ReachableUnder (CtlTask.Guard 1) s ∧ s.held = true ∧ ¬ s.Reenters := by
  obtain ⟨s, hrun, hheld⟩ : ∃ s, System.runSteps (System.guarded (CtlTask.Guard 1) (CtlTask.step 1)) (.start 1)
      (unsubscribing ++ [1]) = some s ∧ s.held = true := ⟨_, rfl, rfl⟩
  have hs : (controlTask 1).ReachableUnder (CtlTask.Guard 1) s := System.reachableUnder_runSteps _ (.init rfl) hrun
  exact ⟨s, hs, hheld, controlTask_never_reenters hs⟩

/-- The `close` fails, and the task comes to the error line in the section. -/
theorem not_controlTask_never_reenters : ¬ ∀ level s, (controlTask level).Reachable s → ¬ s.Reenters := by
  intro h
  obtain ⟨s, hrun, hreenters⟩ : ∃ s, System.runSteps (CtlTask.step 1) (.start 1) (unsubscribing ++ [0, 0, 0]) = some s ∧
      s.Reenters := ⟨_, rfl, rfl, _, .inl rfl⟩
  exact h 1 s (System.reachable_runSteps _ (.init rfl) hrun) hreenters

end Vedruino.Netlog.Reentry
