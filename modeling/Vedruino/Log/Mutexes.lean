import Mathlib.Data.Nat.Basic
import Mathlib.Logic.Function.Basic
import Vedruino.Lib.Runs
import Vedruino.Lib.Locks

/-!
# The mutexes of the logging path

With `CONF_LOG_BTRACE_ON_ERROR` set, `PKLOGE` holds `pk_btrace_mutex` while it prints its line and the backtrace. Every printed line makes `stdout_flush` run in the printing task, and the flush holds `clients_mutex` while it sends. A send that fails inside the flush logs again: `handle_send` with `PKLOGE`, then `flush_with_shstack` with `PKLOGE_UART`, and a `close` that fails in `del_client` with one more `PKLOGE`. During the flush `stdout` is the UART file, so these lines do not flush again, but each of them takes `pk_btrace_mutex`. They are lines of the library and are compiled in only from the log level 1 on.

The model keeps, for each task, where it is in this code. A task that calls `PKLOGW`, `PKLOGI` or `printf` prints without `pk_btrace_mutex`. The client table is not part of the state: a flush makes any number of sends, each with any outcome. The retries of a send on `ENOMEM` log with `PKLOGW` to the UART and take no mutex, so a send is one step, with its final outcome. The sections of the control task, which also take `clients_mutex`, are not part of this model.
-/

namespace Vedruino.Log

/-- The two mutexes, both taken with `portMAX_DELAY`. -/
inductive Mutex
  | btrace
  | clients
  deriving DecidableEq, Repr

def Mutex.rank : Mutex → Nat
  | .btrace => 0
  | .clients => 1

/-- The order of a printing `PKLOGE`: `pk_btrace_mutex` first, then `clients_mutex` in its flush. -/
instance : Preorder Mutex := Preorder.lift Mutex.rank

theorem Mutex.btrace_lt_clients : Mutex.btrace < Mutex.clients := by
  show Mutex.rank .btrace < Mutex.rank .clients
  decide

/-- The error lines inside a flush: of `handle_send`, of `flush_with_shstack`, and of `pk_sock_close`. -/
inductive ErrLine
  | send
  | disconnect
  | close
  deriving DecidableEq, Repr

/-- `CONF_LOG_LIB_LEVEL` and `CONF_LOG_APP_LEVEL`. -/
structure Levels where
  lib : Int
  app : Int

/-- `PKLOG_LEVEL` where the call stands. -/
def Levels.pklogLevel (lv : Levels) (fromApp : Bool) : Int := if fromApp then lv.app else lv.lib

/-- Where a task is in the logging code. The flag `e` says that the output being printed or flushed is that of a `PKLOGE`, which holds `pk_btrace_mutex` around it. -/
inductive Pc
  | idle
  | logTake
  | print (e : Bool)
  | flushTake (e : Bool)
  | flush (e : Bool)
  | errTake (e : Bool) (line : ErrLine)
  | errLog (e : Bool) (line : ErrLine)
  | del (e : Bool)
  deriving DecidableEq, Repr

/-- What a task does next. The outcomes of a send and of a `close` come from outside. -/
inductive Act
  | logE (fromApp : Bool)
  | logOut
  | take
  | newline
  | send (ok : Bool)
  | close (ok : Bool)
  | give
  | done
  deriving DecidableEq, Repr

inductive Op
  | keep
  | take (m : Mutex)
  | give (m : Mutex)
  deriving DecidableEq, Repr

/-- The logging code of one task. -/
def Pc.next (lv : Levels) : Pc → Act → Option (Pc × Op)
  -- PKLOGE_TAG
  | .idle, .logE fromApp => some (if 1 ≤ lv.pklogLevel fromApp then .logTake else .idle, .keep)
  | .logTake, .take => some (.print true, .take .btrace)
  | .print true, .done => some (.idle, .give .btrace)
  -- PKLOGW_TAG, PKLOGI_TAG, printf
  | .idle, .logOut => some (.print false, .keep)
  | .print false, .done => some (.idle, .keep)
  -- stdout_flush
  | .print e, .newline => some (.flushTake e, .keep)
  | .flushTake e, .take => some (.flush e, .take .clients)
  | .flush e, .done => some (.print e, .give .clients)
  -- flush_with_shstack: one send, and the lines logged when it fails
  | .flush e, .send true => some (.flush e, .keep)
  | .flush e, .send false => some (if 1 ≤ lv.lib then .errTake e .send else .del e, .keep)
  | .errTake e line, .take => some (.errLog e line, .take .btrace)
  | .errLog e .send, .give => some (.errTake e .disconnect, .give .btrace)
  | .errLog e .disconnect, .give => some (.del e, .give .btrace)
  -- del_client
  | .del e, .close true => some (.flush e, .keep)
  | .del e, .close false => some (if 1 ≤ lv.lib then .errTake e .close else .flush e, .keep)
  | .errLog e .close, .give => some (.flush e, .give .btrace)
  | _, _ => none

variable {ι : Type*} [DecidableEq ι]

/-- Where each task is, and which task holds each mutex. -/
structure State (ι : Type*) where
  pc : ι → Pc
  holder : Mutex → Option ι

/-- `xSemaphoreTake` goes through only when the mutex is free, whoever holds it. -/
def Op.enabled (op : Op) (holder : Mutex → Option ι) : Prop :=
  ∀ m, op = .take m → holder m = none

instance (op : Op) (holder : Mutex → Option ι) : Decidable (op.enabled holder) :=
  match op with
  | .keep => isTrue (by simp [Op.enabled])
  | .give _ => isTrue (by simp [Op.enabled])
  | .take m => decidable_of_iff (holder m = none) (by simp [Op.enabled])

/-- The holders after task `t` has done `op`. -/
def Op.effect (op : Op) (t : ι) (holder : Mutex → Option ι) : Mutex → Option ι :=
  match op with
  | .keep => holder
  | .take m => Function.update holder m (some t)
  | .give m => Function.update holder m none

/-- Task `t` does `a`; `none` where it cannot, and in particular where it waits for a mutex. -/
def State.step (lv : Levels) (s : State ι) (t : ι) (a : Act) : Option (State ι) :=
  match (s.pc t).next lv a with
  | none => none
  | some (p, op) =>
    if op.enabled s.holder then
      some { pc := Function.update s.pc t p, holder := op.effect t s.holder }
    else none

/-- Any number of tasks in any interleaving, after `pk_log_init` and `pk_netlog_init`. -/
def system (lv : Levels) (ι : Type*) [DecidableEq ι] : System (State ι) (ι × Act) :=
  .ofStep (fun s => (∀ t, s.pc t = .idle) ∧ ∀ m, s.holder m = none) fun s l => s.step lv l.1 l.2

def Pc.wants : Pc → Option Mutex
  | .logTake | .errTake _ _ => some .btrace
  | .flushTake _ => some .clients
  | _ => none

def State.locks (s : State ι) : Locks ι Mutex where
  holder := s.holder
  wants t := (s.pc t).wants

/-- No reachable state has a task that waits for a mutex it holds itself, or tasks that wait for one another in a circle. -/
def DeadlockFree (lv : Levels) (ι : Type*) [DecidableEq ι] : Prop :=
  ∀ s, (system lv ι).Reachable s → ¬ s.locks.Deadlocked

/-! ### Who holds what -/

/-- The mutexes held at a point of the code. -/
def Pc.holds : Pc → Mutex → Bool
  | .print e, .btrace | .flushTake e, .btrace | .flush e, .btrace => e
  | .errTake e _, .btrace | .del e, .btrace => e
  | .errLog _ _, .btrace => true
  | .flush _, .clients | .errTake _ _, .clients | .errLog _ _, .clients | .del _, .clients => true
  | _, _ => false

/-- About to log an error line inside a flush. -/
def Pc.isErrTake : Pc → Bool
  | .errTake _ _ => true
  | _ => false

/-- At an error line inside a flush, about to log it or logging it. -/
def Pc.isErr : Pc → Bool
  | .errTake _ _ | .errLog _ _ => true
  | _ => false

/-- Logging an error line inside the flush of a `PKLOGE`, with `pk_btrace_mutex` taken twice. -/
def Pc.isNested : Pc → Bool
  | .errLog e _ => e
  | _ => false

/-- What the holds of a task become under an operation. -/
def Op.after : Op → Mutex → Bool → Bool
  | .keep, _, b => b
  | .take m', m, b => if m = m' then true else b
  | .give m', m, b => if m = m' then false else b

variable {lv : Levels}

theorem Pc.next_holds {p q : Pc} {a : Act} {op : Op} (h : p.next lv a = some (q, op))
    (hp : p.isNested = false) (m : Mutex) : q.holds m = op.after m (p.holds m) := by
  unfold Pc.next at h
  split at h <;> simp at h <;> obtain ⟨rfl, rfl⟩ := h <;> cases m <;> (try split) <;>
    simp_all [Pc.holds, Op.after, Pc.isNested]

theorem Pc.next_give {p q : Pc} {a : Act} {m : Mutex} (h : p.next lv a = some (q, .give m)) :
    p.holds m = true := by
  unfold Pc.next at h
  split at h <;> simp at h <;> obtain ⟨rfl, rfl⟩ := h <;> rfl

theorem Pc.next_takeBtrace {p q : Pc} {a : Act} (h : p.next lv a = some (q, .take .btrace)) :
    a = .take ∧ (p = .logTake ∨ p.isErrTake = true) := by
  unfold Pc.next at h
  split at h <;> simp at h <;> simp [Pc.isErrTake]

theorem Pc.holds_clients_of_isErrTake {p : Pc} (h : p.isErrTake = true) : p.holds .clients = true := by
  cases p <;> simp_all [Pc.isErrTake, Pc.holds]

theorem Pc.next_nested {p q : Pc} {a : Act} {op : Op} (h : p.next lv a = some (q, op))
    (hq : q.isNested = true) : op = .take .btrace ∧ p.holds .btrace = true := by
  unfold Pc.next at h
  split at h <;> simp at h <;> obtain ⟨rfl, rfl⟩ := h <;> (try split at hq) <;> simp_all [Pc.isNested, Pc.holds]

theorem Pc.next_isErrTake {p q : Pc} {a : Act} {op : Op} (h : p.next lv a = some (q, op))
    (hq : q.isErrTake = true) :
    (op = .keep ∧ 1 ≤ lv.lib ∧ (a = .send false ∨ a = .close false)) ∨ op = .give .btrace := by
  unfold Pc.next at h
  split at h <;> simp at h <;> obtain ⟨rfl, rfl⟩ := h <;> (try split at hq) <;> simp_all [Pc.isErrTake]

theorem Pc.next_isErr {p q : Pc} {a : Act} {op : Op} (h : p.next lv a = some (q, op)) (hlevel : lv.lib < 1)
    (hp : p.isErr = false) : q.isErr = false := by
  have hlib : ¬ 1 ≤ lv.lib := Int.not_le.2 hlevel
  unfold Pc.next at h
  split at h <;> simp at h <;> obtain ⟨rfl, rfl⟩ := h <;> (try split) <;> simp_all [Pc.isErr]

theorem State.step_cases {s s' : State ι} {t : ι} {a : Act} (h : s.step lv t a = some s') :
    ∃ p op, (s.pc t).next lv a = some (p, op) ∧ op.enabled s.holder ∧
      s' = { pc := Function.update s.pc t p, holder := op.effect t s.holder } := by
  unfold State.step at h
  split at h
  · cases h
  · rename_i p op hnext
    rw [Option.ite_none_right_eq_some] at h
    exact ⟨p, op, hnext, h.1, (Option.some.inj h.2).symm⟩

/-- The holder of a mutex is the one task between its take and its give, and nobody holds `pk_btrace_mutex` twice. -/
structure Owned (s : State ι) : Prop where
  holder_iff : ∀ t m, s.holder m = some t ↔ (s.pc t).holds m = true
  not_nested : ∀ t, (s.pc t).isNested = false

theorem owned_init {s : State ι} (h : (system lv ι).Init s) : Owned s where
  holder_iff t m := by simp [h.1 t, h.2 m, Pc.holds]
  not_nested t := by simp [h.1 t, Pc.isNested]

theorem owned_step {s s' : State ι} {t : ι} {a : Act} (hs : Owned s) (h : s.step lv t a = some s') :
    Owned s' := by
  obtain ⟨p, op, hnext, hfree, rfl⟩ := State.step_cases h
  have hholds := Pc.next_holds hnext (hs.not_nested t)
  constructor
  · intro u m
    dsimp only
    by_cases hu : u = t
    · subst u
      rw [Function.update_self, hholds]
      cases op with
      | keep => exact hs.holder_iff t m
      | take m' => by_cases hm : m = m' <;> simp [Op.after, Op.effect, hm, hs.holder_iff]
      | give m' => by_cases hm : m = m' <;> simp [Op.after, Op.effect, hm, hs.holder_iff]
    · rw [Function.update_of_ne hu, ← hs.holder_iff u m]
      cases op with
      | keep => rfl
      | take m' =>
        by_cases hm : m = m'
        · simp [Op.effect, hm, hfree m' rfl, Ne.symm hu]
        · simp [Op.effect, hm]
      | give m' =>
        by_cases hm : m = m'
        · have hheld := (hs.holder_iff t m').2 (Pc.next_give hnext)
          simp [Op.effect, hm, hheld, Ne.symm hu]
        · simp [Op.effect, hm]
  · intro u
    dsimp only
    by_cases hu : u = t
    · subst u
      rw [Function.update_self]
      by_contra hnested
      obtain ⟨rfl, hbtrace⟩ := Pc.next_nested hnext (by simpa using hnested)
      have hheld := (hs.holder_iff t .btrace).2 hbtrace
      simp [hfree .btrace rfl] at hheld
    · rw [Function.update_of_ne hu]
      exact hs.not_nested u

theorem owned_of_reachableUnder {G : State ι → ι × Act → Prop} {s : State ι}
    (h : (system lv ι).ReachableUnder G s) : Owned s :=
  h.invariant (fun _ => owned_init) fun _ _ _ hs _ hstep => owned_step hs hstep

/-! ### When the logging path is free of deadlocks -/

/-- Where the library logs errors, no send and no `close` fails inside a flush while `pk_btrace_mutex` is taken, and no `PKLOGE` takes it while an error line of a flush is about to be logged. -/
def ErrorsLoggedAlone (lv : Levels) (s : State ι) (l : ι × Act) : Prop :=
  (1 ≤ lv.lib → l.2 = .send false ∨ l.2 = .close false → s.holder .btrace = none) ∧
    (s.pc l.1 = .logTake → l.2 = .take → ∀ u, (s.pc u).isErrTake = false)

/-- Whoever is about to log an error line inside a flush finds `pk_btrace_mutex` free. -/
def ErrorsFree (s : State ι) : Prop := ∀ t, (s.pc t).isErrTake = true → s.holder .btrace = none

theorem errorsFree_step {s s' : State ι} {t : ι} {a : Act} (hown : Owned s) (hs : ErrorsFree s)
    (hguard : ErrorsLoggedAlone lv s (t, a)) (h : s.step lv t a = some s') : ErrorsFree s' := by
  obtain ⟨p, op, hnext, hfree, rfl⟩ := State.step_cases h
  intro u hu
  dsimp only at hu ⊢
  by_cases hut : u = t
  · subst u
    rw [Function.update_self] at hu
    rcases Pc.next_isErrTake hnext hu with ⟨rfl, hlevel, hfail⟩ | rfl
    · exact hguard.1 hlevel hfail
    · simp [Op.effect]
  · rw [Function.update_of_ne hut] at hu
    have hbtrace := hs u hu
    cases op with
    | keep => exact hbtrace
    | give m => by_cases hm : m = .btrace <;> simp [Op.effect, Function.update_apply, hm, hbtrace]
    | take m =>
      cases m with
      | clients => simpa [Op.effect, Function.update_apply] using hbtrace
      | btrace =>
        -- taken by a `PKLOGE`, which the guard excludes, or by another error line, which would hold `clients_mutex` too
        obtain ⟨rfl, hlog | herr⟩ := Pc.next_takeBtrace hnext
        · have hnone := hguard.2 hlog rfl u
          rw [hu] at hnone
          cases hnone
        · have ht := (hown.holder_iff t .clients).2 (Pc.holds_clients_of_isErrTake herr)
          have hu := (hown.holder_iff u .clients).2 (Pc.holds_clients_of_isErrTake hu)
          exact absurd (Option.some.inj (hu.symm.trans ht)) hut

omit [DecidableEq ι] in
theorem ordered_of_errorsFree {s : State ι} (hown : Owned s) (hs : ErrorsFree s) : s.locks.Ordered := by
  intro t u m m' hwants hheld hholds
  change s.holder m' = some t at hholds
  change s.holder m = some u at hheld
  change (s.pc t).wants = some m at hwants
  rw [hown.holder_iff] at hholds
  have herr := hs t
  cases hpc : s.pc t <;> rw [hpc] at hwants hholds herr <;> simp [Pc.wants] at hwants
  case logTake => cases m' <;> simp [Pc.holds] at hholds
  case flushTake e =>
    subst m
    cases m' with
    | btrace => exact Mutex.btrace_lt_clients
    | clients => simp [Pc.holds] at hholds
  case errTake e line =>
    subst m
    simp [herr rfl] at hheld

/-- **The logging path is free of deadlocks in every run where the failing sends and closes of a flush are logged, if at all, while no `PKLOGE` is in progress.** -/
theorem deadlockFree_of_errorsLoggedAlone {s : State ι}
    (h : (system lv ι).ReachableUnder (ErrorsLoggedAlone lv) s) : ¬ s.locks.Deadlocked := by
  have hinv : Owned s ∧ ErrorsFree s := by
    apply h.invariant (I := fun s => Owned s ∧ ErrorsFree s)
    · intro s hs
      refine ⟨owned_init hs, fun t ht => ?_⟩
      simp [hs.1 t, Pc.isErrTake] at ht
    · intro s l t hs hguard hstep
      exact ⟨owned_step hs.1 hstep, errorsFree_step hs.1 hs.2 hguard hstep⟩
  exact (ordered_of_errorsFree hinv.1 hinv.2).not_deadlocked

theorem reachableUnder_step {G : State ι → ι × Act → Prop} {s s' : State ι} {t : ι} {a : Act}
    (hs : (system lv ι).ReachableUnder G s) (hguard : G s (t, a)) (h : s.step lv t a = some s') :
    (system lv ι).ReachableUnder G s' :=
  hs.step (l := (t, a)) hguard h

def State.quiet (ι : Type*) : State ι := ⟨fun _ => .idle, fun _ => none⟩

theorem reachableUnder_quiet (G : State ι → ι × Act → Prop) :
    (system lv ι).ReachableUnder G (State.quiet ι) :=
  .init ⟨fun _ => rfl, fun _ => rfl⟩

/-- The default levels. -/
def defaultLevels : Levels := ⟨3, 5⟩

theorem pklogw_failed_send_not_deadlocked :
    ¬ (State.locks (ι := Fin 1)
      ⟨fun _ => .errTake false .send, fun m => if m = .clients then some 0 else none⟩).Deadlocked := by
  have hguard : ∀ (s : State (Fin 1)) a, s.pc 0 ≠ .logTake → s.holder .btrace = none →
      ErrorsLoggedAlone defaultLevels s (0, a) :=
    fun s a hpc hfree => ⟨fun _ _ => hfree, fun hlog => absurd hlog hpc⟩
  have hidle : (system defaultLevels (Fin 1)).ReachableUnder (ErrorsLoggedAlone defaultLevels) (State.quiet _) :=
    reachableUnder_quiet _
  have hprint := reachableUnder_step (t := 0) (a := .logOut) hidle (hguard _ _ (by decide) rfl) rfl
  have hline := reachableUnder_step (t := 0) (a := .newline) hprint (hguard _ _ (by decide) rfl) rfl
  have hflush := reachableUnder_step (t := 0) (a := .take) hline (hguard _ _ (by decide) rfl) rfl
  have hfailed := reachableUnder_step (t := 0) (a := .send false) hflush (hguard _ _ (by decide) rfl) rfl
  have hreach : (system defaultLevels (Fin 1)).ReachableUnder (ErrorsLoggedAlone defaultLevels)
      ⟨fun _ => .errTake false .send, fun m => if m = .clients then some 0 else none⟩ := by
    convert hfailed using 2
    · ext t
      simp [Fin.fin_one_eq_zero t, defaultLevels]
    · ext m
      cases m <;> rfl
  exact deadlockFree_of_errorsLoggedAlone hreach

/-- One task, one client: `PKLOGE` prints its line, the send of the flush fails, and the `PKLOGE` of `handle_send` waits for the mutex its own task holds. -/
theorem pkloge_waits_for_itself : ¬ ∀ n, DeadlockFree defaultLevels (Fin n) := by
  intro hfree
  have hidle : (system defaultLevels (Fin 1)).Reachable (State.quiet _) := reachableUnder_quiet _
  have hcall := reachableUnder_step (t := 0) (a := .logE true) hidle trivial rfl
  have htaken := reachableUnder_step (t := 0) (a := .take) hcall trivial rfl
  have hprint := reachableUnder_step (t := 0) (a := .newline) htaken trivial rfl
  have hflush := reachableUnder_step (t := 0) (a := .take) hprint trivial rfl
  have hfailed := reachableUnder_step (t := 0) (a := .send false) hflush trivial rfl
  exact hfree 1 _ hfailed (Locks.deadlocked_of_self (t := 0) ⟨.btrace, rfl, rfl⟩)

/-! ### What the condition leaves out -/

theorem Pc.eq_of_holds_btrace {p : Pc} (hb : p.holds .btrace = true) (hc : p.holds .clients = false) :
    p = .print true ∨ p = .flushTake true := by
  cases p <;> simp_all [Pc.holds]

theorem Pc.wants_of_isErrTake {p : Pc} (h : p.isErrTake = true) : p.wants = some .btrace := by
  cases p <;> simp_all [Pc.isErrTake, Pc.wants]

theorem Pc.next_fail {p q : Pc} {a : Act} {op : Op} (h : p.next lv a = some (q, op)) (hlevel : 1 ≤ lv.lib)
    (ha : a = .send false ∨ a = .close false) : q.isErrTake = true ∧ op = .keep := by
  unfold Pc.next at h
  rcases ha with rfl | rfl <;> split at h <;> simp at h <;> obtain ⟨rfl, rfl⟩ := h <;>
    simp_all [Pc.isErrTake]

/-- A run goes on from the state to a deadlock. -/
def State.Deadlocks (lv : Levels) (s : State ι) : Prop :=
  ∃ ls d, System.runSteps (fun s (l : ι × Act) => State.step lv s l.1 l.2) s ls = some d ∧ d.locks.Deadlocked

omit [DecidableEq ι] in
theorem State.wants_errTake {s : State ι} {t : ι} (ht : (s.pc t).isErrTake = true) : s.locks.wants t = some .btrace :=
  Pc.wants_of_isErrTake ht

theorem deadlocks_of_blocked_errTake {s : State ι} {t u : ι} (hown : Owned s)
    (ht : (s.pc t).isErrTake = true) (hu : s.holder .btrace = some u) : s.Deadlocks lv := by
  have hclients := (hown.holder_iff t .clients).2 (Pc.holds_clients_of_isErrTake ht)
  have hwaits : s.locks.WaitsFor t u := ⟨.btrace, State.wants_errTake ht, hu⟩
  by_cases hut : u = t
  · subst u
    exact ⟨[], s, rfl, Locks.deadlocked_of_self hwaits⟩
  · have hfree : (s.pc u).holds .clients = false := by
      by_contra hheld
      have hheld := (hown.holder_iff u .clients).2 (by simpa using hheld)
      exact hut (Option.some.inj (hheld.symm.trans hclients))
    rcases Pc.eq_of_holds_btrace ((hown.holder_iff u .btrace).1 hu) hfree with hpc | hpc
    · -- the `PKLOGE` that holds `pk_btrace_mutex` has a line to flush
      have hstep : s.step lv u .newline =
          some { pc := Function.update s.pc u (.flushTake true), holder := s.holder } := by
        simp [State.step, hpc, Pc.next, Op.enabled, Op.effect]
      have hrun : System.runSteps (fun s (l : ι × Act) => State.step lv s l.1 l.2) s [(u, .newline)] =
          some { pc := Function.update s.pc u (.flushTake true), holder := s.holder } := by
        rw [System.runSteps, hstep]
        rfl
      refine ⟨_, _, hrun, Locks.deadlocked_of_pair (t := t) (u := u) ?_ ?_⟩
      · refine ⟨.btrace, State.wants_errTake ?_, hu⟩
        dsimp only
        rwa [Function.update_of_ne (Ne.symm hut)]
      · exact ⟨.clients, by simp [State.locks, Pc.wants], hclients⟩
    · exact ⟨[], s, rfl, Locks.deadlocked_of_pair hwaits ⟨.clients, by simp [State.locks, hpc, Pc.wants], hclients⟩⟩

/-- After any step that breaks the condition the system can go on to a deadlock. -/
theorem deadlocks_of_not_errorsLoggedAlone {s s' : State ι} {t : ι} {a : Act} (hs : (system lv ι).Reachable s)
    (hstep : s.step lv t a = some s') (hguard : ¬ ErrorsLoggedAlone lv s (t, a)) : s'.Deadlocks lv := by
  have hown := owned_step (owned_of_reachableUnder hs) hstep
  obtain ⟨p, op, hnext, hfree, rfl⟩ := State.step_cases hstep
  rcases not_and_or.1 hguard with hfail | htake
  · obtain ⟨hlevel, hfail⟩ := Classical.not_imp.1 hfail
    obtain ⟨ha, hheld⟩ := Classical.not_imp.1 hfail
    obtain ⟨herr, rfl⟩ := Pc.next_fail hnext hlevel ha
    obtain ⟨u, hu⟩ := Option.ne_none_iff_exists'.1 hheld
    exact deadlocks_of_blocked_errTake (t := t) hown (by simpa using herr) hu
  · simp only [Classical.not_imp, not_forall] at htake
    obtain ⟨hlog, rfl, u, hu⟩ := htake
    have hut : u ≠ t := by
      rintro rfl
      simp [hlog, Pc.isErrTake] at hu
    simp only [hlog, Pc.next, Option.some.injEq, Prod.mk.injEq] at hnext
    obtain ⟨rfl, rfl⟩ := hnext
    refine deadlocks_of_blocked_errTake (t := u) (u := t) hown ?_ (by simp [Op.effect])
    simpa [Function.update_of_ne hut] using hu

/-- Where the error lines of the library are not compiled in, no run comes to a deadlock. -/
theorem deadlockFree_of_lib_lt (hlevel : lv.lib < 1) : DeadlockFree lv ι := by
  intro s hs
  have hinv : Owned s ∧ ∀ t, (s.pc t).isErr = false := by
    apply hs.invariant (I := fun s => Owned s ∧ ∀ t, (s.pc t).isErr = false)
    · intro s hs
      exact ⟨owned_init hs, fun t => by simp [hs.1 t, Pc.isErr]⟩
    · intro s l s' hs _ hstep
      refine ⟨owned_step hs.1 hstep, ?_⟩
      obtain ⟨p, op, hnext, hfree, rfl⟩ := State.step_cases hstep
      intro u
      dsimp only
      by_cases hu : u = l.1
      · rw [hu, Function.update_self]
        exact Pc.next_isErr hnext hlevel (hs.2 l.1)
      · rw [Function.update_of_ne hu]
        exact hs.2 u
  refine (ordered_of_errorsFree hinv.1 fun t ht => ?_).not_deadlocked
  have hnone := hinv.2 t
  cases hpc : s.pc t <;> simp_all [Pc.isErrTake, Pc.isErr]

end Vedruino.Log
