import Vedruino.Lib.Runs
import Vedruino.Boot.Setup
import Vedruino.Config.Accepted
import Mathlib.Logic.Function.Basic

/-!
# The order of the logger's initialisation

The board runs `setup` and the tasks that it has started, one act or one outcome at a time. `pk_log_init` is never called, so a use of what it creates is never preceded by it, and the order holds only for configurations in which no run uses anything.
-/

namespace Vedruino.Boot

open Prog

inductive Event
  | init
  | use (h : Handle)
  deriving DecidableEq, Repr

/-- What a task runs first. -/
def Task.code : Task → Code Unit
  | .setup => return
  | .netlogCtl => ctlServerTask
  | .ota => serverTask
  | .mqtt => mqttEventHandler

/-- What a task runs again and again; for `setup` it is `loop`. -/
def Task.round : Task → Code Unit
  | .setup => return
  | .netlogCtl => ctlServerLoop
  | .ota => serverLoop
  | .mqtt => mqttEventHandler

structure Board where
  threads : Task → Option (Code Unit)
  /-- `stdout` is `netlogout`. -/
  out : Bool
  trace : List Event

namespace Board

variable (c : Settings)

def boot : Board := ⟨Function.update (fun _ => none) .setup (some (setup c)), false, []⟩

def run (s : Board) (t : Task) (p : Code Unit) : Board := { s with threads := Function.update s.threads t (some p) }

def perform (s : Board) : Act → Board
  | .log src lvl => { s with trace := s.trace ++ (c.logUses s.out src lvl).map .use }
  | .logInit => { s with trace := s.trace ++ [.init] }
  | .netlogOut => { s with out := true }
  | .start t => s.run t t.code
  | .stop t => { s with threads := Function.update s.threads t none }

/-- A step of the task, with the outcome where it makes a call. -/
def step (s : Board) (l : Task × Nat) : Option Board :=
  match s.threads l.1 with
  | none => none
  | some (.pure _) => some (s.run l.1 l.1.round)
  | some (.act x p) => some ((s.run l.1 p).perform c x)
  | some (.choose k) => some (s.run l.1 (k l.2))
  | some .halt => some { s with threads := fun _ => none }

end Board

def board (c : Settings) : System Board (Task × Nat) := System.ofStep (fun s => s = Board.boot c) (Board.step c)

/-- Each use is preceded by the initialisation. -/
def Ordered (trace : List Event) : Prop :=
  ∀ before h after, trace = before ++ .use h :: after → .init ∈ before

/-! ### What a step does -/

namespace Board

variable {c : Settings} {s s' : Board} {t u : Task} {n : Nat} {p q : Code Unit} {x : Act}

theorem step_cases (h : s.step c (t, n) = some s') :
    (∃ p, (s.threads t = some (.pure ()) ∧ p = t.round ∨ ∃ k, s.threads t = some (.choose k) ∧ p = k n) ∧ s' = s.run t p) ∨
      (∃ x p, s.threads t = some (.act x p) ∧ s' = (s.run t p).perform c x) ∨ s' = { s with threads := fun _ => none } := by
  rw [step] at h
  dsimp only at h
  split at h
  · cases h
  · rename_i hthread
    exact .inl ⟨_, .inl ⟨hthread, rfl⟩, (Option.some.inj h).symm⟩
  · rename_i x p hthread
    exact .inr (.inl ⟨x, p, hthread, (Option.some.inj h).symm⟩)
  · rename_i k hthread
    exact .inl ⟨_, .inr ⟨k, hthread, rfl⟩, (Option.some.inj h).symm⟩
  · exact .inr (.inr (Option.some.inj h).symm)

theorem threads_run (h : (s.run t p).threads u = some q) : u = t ∧ q = p ∨ u ≠ t ∧ s.threads u = some q := by
  dsimp only [run] at h
  by_cases hu : u = t
  · subst hu
    rw [Function.update_self] at h
    exact .inl ⟨rfl, (Option.some.inj h).symm⟩
  · rw [Function.update_of_ne hu] at h
    exact .inr ⟨hu, h⟩

theorem threads_perform (h : (s.perform c x).threads u = some q) : s.threads u = some q ∨ x = .start u ∧ q = u.code := by
  cases x with
  | start t =>
    rcases threads_run h with h | h
    · obtain ⟨rfl, rfl⟩ := h
      exact .inr ⟨rfl, rfl⟩
    · exact .inl h.2
  | stop t =>
    dsimp only [perform] at h
    by_cases hu : u = t
    · subst hu
      rw [Function.update_self] at h
      cases h
    · rw [Function.update_of_ne hu] at h
      exact .inl h
  | _ => exact .inl h

theorem out_perform : (s.perform c x).out = nextOut s.out x := by
  cases x <;> rfl

end Board

/-! ### The acts of the tasks -/

/-- What the tasks do in the configuration; none of them calls `pk_log_init`. -/
def Task.Acts (c : Settings) : Task → Act → Prop
  | .setup => fun x => x ≠ .logInit ∧ x ≠ .stop .setup ∧ x ≠ .start .setup ∧ (x = .netlogOut → c.netlog = true)
  | _ => LibAct

section

variable {c : Settings} {t : Task} {x : Act}

theorem InitAct.setupAct (h : InitAct x) : Task.Acts c .setup x := by
  cases x with
  | log src lvl => exact ⟨nofun, nofun, nofun, nofun⟩
  | start u => exact ⟨nofun, nofun, fun hu => h (Act.start.inj hu), nofun⟩
  | stop u => exact ⟨nofun, fun hu => h (Act.stop.inj hu), nofun, nofun⟩
  | _ => exact h.elim

theorem LibAct.taskActs (h : LibAct x) : t.Acts c x := by
  cases t with
  | setup => exact (InitAct.of_lib h).setupAct
  | _ => exact h

theorem QuietLibAct.lib (h : QuietLibAct x) : LibAct x := by
  cases x with
  | log src lvl => exact h.1
  | _ => exact h.elim

theorem Task.code_all (h : t ≠ .setup) : t.code.All LibAct := by
  cases t with
  | setup => exact absurd rfl h
  | netlogCtl => exact ctlServerTask_all
  | ota => exact serverTask_all
  | mqtt => exact mqttEventHandler_all

theorem Task.round_all : t.round.All LibAct := by
  cases t with
  | setup => trivial
  | netlogCtl => exact ctlServerLoop_all
  | ota => exact serverLoop_all
  | mqtt => exact mqttEventHandler_all

theorem compiled_all {P : Act → Prop} {enabled : Bool} {p : Code Unit} (h : enabled = true → p.All P) :
    (compiled enabled p).All P := by
  cases enabled with
  | false => trivial
  | true => exact h rfl

theorem setup_all : (setup c).All (Task.Acts c .setup) := by
  have hlog (lvl : Level) : (pklogApp lvl).All (Task.Acts c .setup) := ⟨⟨nofun, nofun, nofun, nofun⟩, trivial⟩
  have hmodule {p : Code Bool} (hp : p.All InitAct) : (orLog p).All (Task.Acts c .setup) :=
    all_branch (hp.mono fun _ => InitAct.setupAct) trivial (hlog .e)
  have hnetlog (hon : c.netlog = true) : pkNetlogInit.All (Task.Acts c .setup) := by
    refine all_seq all_assert (all_seq all_assert (all_seq all_assert (all_seq all_assert (all_seq all_assert ?_))))
    exact ⟨⟨nofun, nofun, nofun, fun _ => hon⟩, all_branch all_succeeds ⟨⟨nofun, nofun, nofun, nofun⟩, trivial⟩ trivial⟩
  have hi2c : (startI2c c).All (Task.Acts c .setup) := startI2c_all.mono fun _ h => h.lib.taskActs
  refine all_seq (hlog .i) (all_seq (hlog .i) (all_seq (hlog .i) (all_seq (hlog .i) (all_seq ?_ (all_seq ?_ (all_seq ?_
    (all_seq ?_ (all_seq ?_ (hlog .i)))))))))
  · exact compiled_all fun _ => hmodule (pkMdnsInit_all.mono fun _ => InitAct.of_lib)
  · exact compiled_all hnetlog
  · exact compiled_all fun _ => hmodule otaServerStart_all
  · exact compiled_all fun _ => hmodule pkMqttConnect_all
  · exact compiled_all fun _ => hi2c

end

/-! ### No initialisation -/

/-- The tasks do what they do, and nothing has been initialised. -/
structure Board.Uninit (c : Settings) (s : Board) : Prop where
  acts : ∀ t p, s.threads t = some p → p.All (t.Acts c)
  trace : .init ∉ s.trace

section

variable {c : Settings} {s s' : Board} {t : Task} {p : Code Unit} {x : Act}

theorem Board.Uninit.run (h : s.Uninit c) (hp : p.All (t.Acts c)) : (s.run t p).Uninit c := by
  refine ⟨?_, h.trace⟩
  intro u q hq
  rcases threads_run hq with hq | hq
  · obtain ⟨rfl, rfl⟩ := hq
    exact hp
  · exact h.acts u q hq.2

theorem Board.Uninit.perform (h : s.Uninit c) (hx : t.Acts c x) : (s.perform c x).Uninit c := by
  refine ⟨?_, ?_⟩
  · intro u q hq
    rcases threads_perform hq with hq | hq
    · exact h.acts u q hq
    · obtain ⟨rfl, rfl⟩ := hq
      have hu : u ≠ .setup := by
        rintro rfl
        cases t with
        | setup => exact hx.2.2.1 rfl
        | _ => exact hx.elim
      exact (Task.code_all hu).mono fun _ => LibAct.taskActs
  · cases x with
    | log src lvl =>
      intro hmem
      rcases List.mem_append.1 hmem with hmem | hmem
      · exact h.trace hmem
      · obtain ⟨use, -, huse⟩ := List.mem_map.1 hmem
        cases huse
    | logInit =>
      cases t with
      | setup => exact absurd rfl hx.1
      | _ => exact hx.elim
    | _ => exact h.trace

theorem uninit_step {n : Nat} (h : s.Uninit c) (hstep : s.step c (t, n) = some s') : s'.Uninit c := by
  rcases Board.step_cases hstep with ⟨p, hthread, rfl⟩ | ⟨x, p, hthread, rfl⟩ | rfl
  · rcases hthread with ⟨hthread, rfl⟩ | ⟨k, hthread, rfl⟩
    · exact h.run (Task.round_all.mono fun _ => LibAct.taskActs)
    · exact h.run (h.acts t _ hthread n)
  · obtain ⟨hx, hp⟩ := h.acts t _ hthread
    exact (h.run hp).perform hx
  · exact ⟨nofun, h.trace⟩

theorem uninit_boot : (Board.boot c).Uninit c := by
  refine ⟨?_, List.not_mem_nil⟩
  intro t p hp
  dsimp only [Board.boot] at hp
  by_cases ht : t = .setup
  · subst ht
    rw [Function.update_self] at hp
    obtain rfl := Option.some.inj hp
    exact setup_all
  · rw [Function.update_of_ne ht] at hp
    cases hp

theorem uninit_of_reachable (h : (board c).Reachable s) : s.Uninit c := by
  refine h.invariant ?_ ?_
  · intro s hs
    obtain rfl : s = Board.boot c := hs
    exact uninit_boot
  · intro s l s' hs _ hstep
    exact uninit_step hs hstep

end

/-! ### Runs to a use -/

section

variable {c : Settings} {s : Board} {t : Task} {p : Code Unit} {x : Act}

theorem reachable_run {k : Nat → Code Unit} (hs : (board c).Reachable s) (h : s.threads t = some (.choose k)) (n : Nat) :
    (board c).Reachable (s.run t (k n)) := by
  refine .step (l := (t, n)) hs trivial ?_
  change s.step c (t, n) = _
  simp only [Board.step, h]

theorem reachable_perform (hs : (board c).Reachable s) (h : s.threads t = some (.act x p)) :
    (board c).Reachable ((s.run t p).perform c x) := by
  refine .step (l := (t, 0)) hs trivial ?_
  change s.step c (t, 0) = _
  simp only [Board.step, h]

theorem Board.run_threads : (s.run t p).threads t = some p := Function.update_self ..

theorem Board.perform_threads (hstart : x ≠ .start t) (hstop : x ≠ .stop t) :
    (s.perform c x).threads t = s.threads t := by
  cases x with
  | start u => exact Function.update_of_ne (fun h => hstart (congrArg _ h.symm)) ..
  | stop u => exact Function.update_of_ne (fun h => hstop (congrArg _ h.symm)) ..
  | _ => rfl

/-- `setup` runs to each act that its outcomes take it to. -/
theorem reachable_act {out out' : Bool} (h : Reaches nextOut p out x out') (hs : (board c).Reachable s)
    (hp : s.threads .setup = some p) (hout : s.out = out) :
    ∃ s' q, (board c).Reachable s' ∧ s'.threads .setup = some (.act x q) ∧ s'.out = out' := by
  induction h generalizing s with
  | here => exact ⟨s, _, hs, hp, hout⟩
  | act _ ih =>
    rename_i y q out _ _ _
    obtain ⟨hy, -⟩ := (uninit_of_reachable hs).acts _ _ hp
    refine ih (reachable_perform hs hp) ?_ ?_
    · rw [Board.perform_threads hy.2.2.1 hy.2.1]
      exact Board.run_threads
    · rw [Board.out_perform, ← hout]
      rfl
  | choose n _ ih => exact ih (reachable_run hs hp n) Board.run_threads hout

/-- A task that has started can come to an error. -/
theorem reachable_error (ht : t ≠ .setup) (hs : (board c).Reachable s) (hp : s.threads t = some t.code) :
    ∃ s' q, (board c).Reachable s' ∧ s'.threads t = some (.act (.log .lib .e) q) ∧ s'.out = s.out := by
  cases t with
  | setup => exact absurd rfl ht
  | netlogCtl =>
    have hsocket := reachable_run (reachable_perform hs hp) Board.run_threads 0
    exact ⟨_, _, hsocket, Board.run_threads, rfl⟩
  | ota => exact ⟨_, _, reachable_run hs hp 0, Board.run_threads, rfl⟩
  | mqtt => exact ⟨_, _, reachable_run hs hp 6, Board.run_threads, rfl⟩

theorem not_ordered_of_log {src : Source} {lvl : Level} (hs : (board c).Reachable s)
    (hp : s.threads t = some (.act (.log src lvl) p)) (huse : c.logUses s.out src lvl ≠ []) :
    ∃ s', (board c).Reachable s' ∧ ¬ Ordered s'.trace := by
  refine ⟨_, reachable_perform hs hp, ?_⟩
  intro hordered
  match hlist : c.logUses s.out src lvl with
  | [] => exact huse hlist
  | h :: rest =>
    have htrace : ((s.run t p).perform c (.log src lvl)).trace = s.trace ++ .use h :: rest.map .use := by
      dsimp only [Board.perform, Board.run]
      rw [hlist, List.map_cons]
    exact (uninit_of_reachable hs).trace (hordered _ _ _ htrace)

end

/-! ### Runs without a use -/

/-- Nothing is used, and what the running tasks log uses nothing. -/
structure Board.Silent (c : Settings) (s : Board) : Prop extends s.Uninit c where
  silent : s.trace = []
  out : s.out = true → c.netlog = true
  tasks : ∀ t, t ≠ .setup → ∀ p, s.threads t = some p → c.Unused s.out .lib

section

variable {c : Settings} {s s' : Board} {t : Task} {p : Code Unit} {x : Act}

theorem Board.Silent.run (hs : s.Silent c) {q : Code Unit} (ht : s.threads t = some q) (hp : p.All (t.Acts c)) :
    (s.run t p).Silent c := by
  refine ⟨hs.toUninit.run hp, hs.silent, hs.out, ?_⟩
  intro u hu q hq
  rcases threads_run hq with hq | hq
  · obtain ⟨rfl, -⟩ := hq
    exact hs.tasks u hu _ ht
  · exact hs.tasks u hu q hq.2

theorem Board.Silent.perform (hlib : c.netlog = true → c.Unused true .lib) (hs : s.Silent c) (hx : t.Acts c x)
    (hok : Harmless c s.out x) : (s.perform c x).Silent c := by
  have huninit := hs.toUninit.perform hx
  cases x with
  | log src lvl =>
    refine ⟨huninit, ?_, hs.out, hs.tasks⟩
    dsimp only [Board.perform]
    rw [show c.logUses s.out src lvl = [] from hok, hs.silent]
    rfl
  | logInit =>
    cases t with
    | setup => exact absurd rfl hx.1
    | _ => exact hx.elim
  | netlogOut =>
    have hon : c.netlog = true := by
      cases t with
      | setup => exact hx.2.2.2 rfl
      | _ => exact hx.elim
    exact ⟨huninit, hs.silent, fun _ => hon, fun _ _ _ _ => hlib hon⟩
  | start u =>
    refine ⟨huninit, hs.silent, hs.out, ?_⟩
    intro v _ q _
    exact hok
  | stop u =>
    refine ⟨huninit, hs.silent, hs.out, ?_⟩
    intro v hv q hq
    rcases threads_perform hq with hq | hq
    · exact hs.tasks v hv q hq
    · cases hq.1

/-- What is left of `setup` does nothing but what is harmless. -/
def Board.SetupSafe (c : Settings) (s : Board) : Prop :=
  ∀ p, s.threads .setup = some p → c.wp p (fun _ _ => True) s.out

theorem Board.SetupSafe.run (hs : s.SetupSafe c) (h : t = .setup → c.wp p (fun _ _ => True) s.out) : (s.run t p).SetupSafe c := by
  intro q hq
  rcases threads_run hq with hq | hq
  · obtain ⟨rfl, rfl⟩ := hq
    exact h rfl
  · exact hs q hq.2

private theorem silent_act (hlib : c.netlog = true → c.Unused true .lib) (hsilent : s.Silent c) (hsetup : s.SetupSafe c)
    (hthread : s.threads t = some (.act x p)) :
    ((s.run t p).perform c x).Silent c ∧ ((s.run t p).perform c x).SetupSafe c := by
  obtain ⟨hx, hp⟩ := hsilent.acts t _ hthread
  by_cases ht : t = .setup
  · subst ht
    obtain ⟨hok, hrest⟩ := hsetup _ hthread
    refine ⟨(hsilent.run hthread hp).perform hlib hx hok, ?_⟩
    intro q hq
    rcases Board.threads_perform hq with hq | hq
    · rw [Board.run_threads] at hq
      obtain rfl := Option.some.inj hq
      rw [Board.out_perform]
      exact hrest
    · exact absurd hq.1 hx.2.2.1
  · have hact : LibAct x := by
      cases t with
      | setup => exact absurd rfl ht
      | _ => exact hx
    obtain ⟨hok, hout⟩ := (InitAct.of_lib hact).harmless (hsilent.tasks t ht _ hthread)
    refine ⟨(hsilent.run hthread hp).perform hlib hx hok, ?_⟩
    intro q hq
    rcases Board.threads_perform hq with hq | hq
    · rcases Board.threads_run hq with hq | hq
      · exact absurd hq.1.symm ht
      · rw [Board.out_perform, show nextOut (s.run t p).out x = s.out from hout]
        exact hsetup q hq.2
    · rw [hq.1] at hact
      exact hact.elim

theorem silent_step {n : Nat} (hlib : c.netlog = true → c.Unused true .lib) (hs : s.Silent c ∧ s.SetupSafe c)
    (hstep : s.step c (t, n) = some s') : s'.Silent c ∧ s'.SetupSafe c := by
  obtain ⟨hsilent, hsetup⟩ := hs
  rcases Board.step_cases hstep with ⟨p, hthread, rfl⟩ | ⟨x, p, hthread, rfl⟩ | rfl
  · rcases hthread with ⟨hthread, rfl⟩ | ⟨k, hthread, rfl⟩
    · refine ⟨hsilent.run hthread (Task.round_all.mono fun _ => LibAct.taskActs), hsetup.run ?_⟩
      rintro rfl
      trivial
    · refine ⟨hsilent.run hthread (hsilent.acts t _ hthread n), hsetup.run ?_⟩
      rintro rfl
      exact hsetup _ hthread n
  · exact silent_act hlib hsilent hsetup hthread
  · exact ⟨⟨⟨nofun, hsilent.trace⟩, hsilent.silent, hsilent.out, nofun⟩, nofun⟩

private theorem silent_boot (hquiet : c.Quiet) : (Board.boot c).Silent c ∧ (Board.boot c).SetupSafe c := by
  refine ⟨⟨uninit_boot, rfl, Bool.noConfusion, ?_⟩, ?_⟩
  · intro t ht p hp
    dsimp only [Board.boot] at hp
    rw [Function.update_of_ne ht] at hp
    cases hp
  · intro p hp
    dsimp only [Board.boot] at hp
    rw [Function.update_self] at hp
    obtain rfl := Option.some.inj hp
    exact (wp_setup_iff c).2 hquiet

private theorem silent_of_quiet (hquiet : c.Quiet) (hs : (board c).Reachable s) : s.Silent c := by
  have hlib : c.netlog = true → c.Unused true .lib := fun hon => unused_iff.2 fun _ => (hquiet.1 hon).1
  have hinv : s.Silent c ∧ s.SetupSafe c := by
    refine hs.invariant (I := fun s => s.Silent c ∧ s.SetupSafe c) ?_ ?_
    · intro s hs
      obtain rfl : s = Board.boot c := hs
      exact silent_boot hquiet
    · intro s l s' hs _ hstep
      exact silent_step hlib hs hstep
  exact hinv.1

end

/-- In every other configuration some run uses what is not there. -/
theorem exists_not_ordered {c : Settings} (hquiet : ¬ c.Quiet) : ∃ s, (board c).Reachable s ∧ ¬ Ordered s.trace := by
  rw [← wp_setup_iff, Settings.wp, not_wp_iff] at hquiet
  obtain ⟨x, out, hreach, hx⟩ := hquiet
  obtain ⟨s, q, hs, hthread, rfl⟩ := reachable_act hreach (s := Board.boot c) (.init rfl) rfl rfl
  cases x with
  | log src lvl => exact not_ordered_of_log hs hthread hx
  | start t =>
    have hne : t ≠ .setup := fun ht => ((uninit_of_reachable hs).acts _ _ hthread).1.2.2.1 (congrArg _ ht)
    obtain ⟨s', q', hs', hthread', hout⟩ := reachable_error hne (reachable_perform hs hthread) Board.run_threads
    have huse : c.logUses s'.out .lib .e ≠ [] := by
      rw [hout]
      exact hx
    exact not_ordered_of_log hs' hthread' huse
  | _ => exact absurd trivial hx

/-- **Nothing of `pk_log_init` is used before it is called, exactly in the quiet configurations.** In all others some outcomes of the calls bring `setup`, or a task that it has started, to a line that uses the mutex or the file. -/
theorem ordered_iff_quiet (c : Settings) : (∀ s, (board c).Reachable s → Ordered s.trace) ↔ c.Quiet := by
  constructor
  · intro hordered
    by_contra hquiet
    obtain ⟨s, hs, hfalse⟩ := exists_not_ordered hquiet
    exact hfalse (hordered s hs)
  · intro hquiet s hs before h after htrace
    rw [(silent_of_quiet hquiet hs).silent] at htrace
    exact absurd htrace.symm (List.append_ne_nil_of_right_ne_nil _ (List.cons_ne_nil _ _))

/-- A start-up with netlog in which every call succeeds. The last line of `setup` is the first one to be flushed. -/
def healthyNetlog : List (Task × Nat) := List.replicate 13 (.setup, 1)

theorem not_ordered_healthyNetlog : ¬ ∀ int ini defs, Config.genHeader int ini = .ok defs →
    ∀ s, (board (Settings.ofHeader defs)).Reachable s → Ordered s.trace := by
  intro h
  let c := Settings.ofHeader (Config.header Config.readThree Config.netlogIni)
  have hgen : Config.genHeader Config.readThree Config.netlogIni = .ok (Config.header Config.readThree Config.netlogIni) := by
    decide +kernel
  have hrun : (System.runSteps (Board.step c) (Board.boot c) healthyNetlog).map Board.trace = some [.use .uartout] := by
    decide +kernel
  obtain ⟨s, hsteps, htrace⟩ := Option.map_eq_some_iff.1 hrun
  have hmem := h _ _ _ hgen s (System.reachable_runSteps healthyNetlog (.init rfl) hsteps) [] .uartout [] htrace
  cases hmem

end Vedruino.Boot
