import Vedruino.Boot.Programs
import Vedruino.Config.Header

/-!
# The start-up

`setup` calls the initialisation of each enabled module and logs what fails. A log line uses what `pk_log_init` creates: an error takes `pk_btrace_mutex` where its backtrace is enabled, and a line that goes to netlog is flushed by a function that sets `stdout` to `pk_log_uartout`. `wp_setup_iff` says for which configurations no outcome of the calls brings `setup` to such a line.
-/

namespace Vedruino.Boot

open Prog

/-- The macros of `conf.h` that choose what `setup` calls and what is logged. -/
structure Settings where
  libLevel : Int
  appLevel : Int
  btraceOnError : Bool
  mdns : Bool
  netlog : Bool
  ota : Bool
  mqtt : Bool
  i2c : Bool
  runScanner : Bool

def Settings.ofHeader (defs : List Config.Def) : Settings where
  libLevel := Config.ifValue defs "CONF_LOG_LIB_LEVEL"
  appLevel := Config.ifValue defs "CONF_LOG_APP_LEVEL"
  btraceOnError := Config.ifValue defs "CONF_LOG_BTRACE_ON_ERROR" ≠ 0
  mdns := Config.ifValue defs "CONF_LIB_MDNS_ENABLED" ≠ 0
  netlog := Config.ifValue defs "CONF_LIB_NETLOG_ENABLED" ≠ 0
  ota := Config.ifValue defs "CONF_LIB_OTA_ENABLED" ≠ 0
  mqtt := Config.ifValue defs "CONF_LIB_MQTT_ENABLED" ≠ 0
  i2c := Config.ifValue defs "CONF_LIB_I2C_ENABLED" ≠ 0
  runScanner := Config.ifValue defs "CONF_LIB_I2C_RUN_SCANNER" ≠ 0

/-- `#if` around a call. -/
def compiled (enabled : Bool) (p : Code Unit) : Code Unit := if enabled then p else return

/-- A call whose failure `setup` logs. -/
def orLog (p : Code Bool) : Code Unit := do
  if ← p then return
  else pklogApp .e

def startI2c (c : Settings) : Code Unit := do
  pkI2cBegin
  compiled c.runScanner pkI2cScan

def setup (c : Settings) : Code Unit := do
  pklogApp .i
  pklogApp .i
  pklogApp .i
  pklogApp .i
  compiled c.mdns (orLog pkMdnsInit)
  compiled c.netlog pkNetlogInit
  compiled c.ota (orLog otaServerStart)
  compiled c.mqtt (orLog pkMqttConnect)
  compiled c.i2c (startI2c c)
  pklogApp .i

/-! ### Uses -/

/-- What `pk_log_init` creates. -/
inductive Handle
  | btraceMutex | uartout
  deriving DecidableEq, Repr

def Settings.level (c : Settings) : Source → Int
  | .app => c.appLevel
  | .lib => c.libLevel

/-- `out` says that `stdout` is `netlogout`. The flush comes at the end of the line. -/
def Settings.logUses (c : Settings) (out : Bool) (src : Source) (lvl : Level) : List Handle :=
  if lvl.num ≤ c.level src then
    (if lvl = .e ∧ c.btraceOnError then [.btraceMutex] else []) ++ if out then [.uartout] else []
  else []

/-- No error of this source uses anything. -/
def Settings.Unused (c : Settings) (out : Bool) (src : Source) : Prop := c.logUses out src .e = []

/-- What the act does, or the tasks that it starts, uses nothing. -/
def Harmless (c : Settings) (out : Bool) : Act → Prop
  | .log src lvl => c.logUses out src lvl = []
  | .start _ => c.Unused out .lib
  | _ => True

def nextOut (out : Bool) : Act → Bool
  | .netlogOut => true
  | _ => out

/-- The weakest condition under which a program does nothing but what is harmless. -/
abbrev Settings.wp (c : Settings) {α : Type} (p : Code α) (Q : α → Bool → Prop) (out : Bool) : Prop :=
  p.wp (Harmless c) nextOut Q out

section

variable {c : Settings} {out : Bool} {src : Source} {lvl : Level}

theorem logUses_eq_nil (h : c.Unused out src) (lvl : Level) : c.logUses out src lvl = [] := by
  rw [Settings.Unused, Settings.logUses] at h
  rw [Settings.logUses]
  by_cases hlvl : lvl.num ≤ c.level src
  · rw [if_pos (show Level.num .e ≤ c.level src by cases lvl <;> simp only [Level.num] at hlvl ⊢ <;> omega)] at h
    obtain ⟨hmutex, hout⟩ := List.append_eq_nil_iff.1 h
    rw [if_pos hlvl, hout, List.append_nil]
    by_cases he : lvl = .e ∧ c.btraceOnError = true
    · rw [if_pos ⟨rfl, he.2⟩] at hmutex
      cases hmutex
    · rw [if_neg he]
  · rw [if_neg hlvl]

theorem unused_iff : c.Unused out src ↔ (c.btraceOnError = true ∨ out = true → c.level src < 1) := by
  rw [Settings.Unused, Settings.logUses]
  by_cases hlvl : Level.num .e ≤ c.level src
  · have hge : 1 ≤ c.level src := hlvl
    rw [if_pos hlvl]
    cases c.btraceOnError <;> cases out <;> simp [hge]
  · rw [if_neg hlvl]
    exact iff_of_true rfl fun _ => Int.not_le.1 hlvl

private theorem unused_both : c.Unused out .lib ∧ c.Unused out .app ↔
    (c.btraceOnError = true ∨ out = true → c.libLevel < 1 ∧ c.appLevel < 1) := by
  rw [unused_iff, unused_iff, forall_and]
  rfl

theorem logUses_info_iff : c.logUses out src .i = [] ↔ (out = true → c.level src < 3) := by
  rw [Settings.logUses]
  by_cases hlvl : Level.num .i ≤ c.level src
  · have hge : 3 ≤ c.level src := hlvl
    rw [if_pos hlvl]
    cases out <;> simp [hge]
  · rw [if_neg hlvl]
    exact iff_of_true rfl fun _ => Int.not_le.1 hlvl

end

/-! ### The calls of `setup` -/

/-- A log line of the library, or a task other than `setup` that starts or ends. -/
def InitAct : Act → Prop
  | .start t => t ≠ .setup
  | x => LibAct x

theorem InitAct.of_lib {x : Act} (h : LibAct x) : InitAct x := by
  cases x with
  | start t => exact h.elim
  | _ => exact h

theorem otaServerStart_all : otaServerStart.All InitAct :=
  all_branch all_succeeds ⟨Task.noConfusion, trivial⟩ ((pklog_all .e).mono fun _ => InitAct.of_lib)

theorem pkMqttConnect_all : pkMqttConnect.All InitAct := by
  have hchecked : checked.All InitAct := checked_all.mono fun _ => InitAct.of_lib
  have hlog (lvl : Level) : (pklog lvl).All InitAct := (pklog_all lvl).mono fun _ => InitAct.of_lib
  have hdelete : pkMqttDelete.All InitAct := pkMqttDelete_all.mono fun _ => InitAct.of_lib
  have hstart : (perform (.start .mqtt) : Code Unit).All InitAct := ⟨Task.noConfusion, trivial⟩
  refine all_branch hchecked (all_branch hchecked (all_branch hchecked (all_branch hchecked (all_branch hchecked
    (all_seq hstart (all_seq (hlog .i) (all_outcome fun n => ?_))) trivial) trivial) trivial) trivial) trivial
  split
  · exact all_seq (hlog .i) trivial
  · exact all_seq (hlog .e) (all_seq hdelete trivial)
  · exact all_seq (hlog .w) trivial

section

variable {c : Settings} {out : Bool} {Q : Unit → Bool → Prop}

theorem wp_seq {α β : Type} {p : Code α} {f : α → Code β} {Q : β → Bool → Prop} :
    c.wp (p >>= f) Q out ↔ c.wp p (fun a => c.wp (f a) Q) out := wp_bind

theorem wp_compiled {enabled : Bool} {p : Code Unit} {P : Prop} (h : c.wp p Q out ↔ P ∧ Q () out) :
    c.wp (compiled enabled p) Q out ↔ (enabled = true → P) ∧ Q () out := by
  cases enabled with
  | false => exact ⟨fun hQ => ⟨Bool.noConfusion, hQ⟩, And.right⟩
  | true => simpa [compiled] using h

theorem InitAct.harmless {x : Act} (hlib : c.Unused out .lib) (h : InitAct x) : Harmless c out x ∧ nextOut out x = out := by
  cases x with
  | log src lvl =>
    obtain rfl : src = .lib := h
    exact ⟨logUses_eq_nil hlib lvl, rfl⟩
  | start t => exact ⟨hlib, rfl⟩
  | stop t => exact ⟨trivial, rfl⟩
  | _ => exact h.elim

/-- A call that can fail with an error of the library before it has done anything else. -/
theorem wp_orLog {p : Code Bool} (hp : p.All InitAct)
    (hfail : ∀ Q : Bool → Bool → Prop, c.wp p Q out → c.Unused out .lib ∧ Q false out) :
    c.wp (orLog p) Q out ↔ (c.Unused out .lib ∧ c.Unused out .app) ∧ Q () out := by
  rw [orLog, wp_seq]
  constructor
  · intro h
    obtain ⟨hlib, happ, hQ⟩ := hfail _ h
    exact ⟨⟨hlib, happ⟩, hQ⟩
  · intro h
    obtain ⟨⟨hlib, happ⟩, hQ⟩ := h
    refine wp_of_all hp (fun x hx => hx.harmless hlib) fun b => ?_
    cases b with
    | true => exact hQ
    | false => exact ⟨happ, hQ⟩

theorem wp_pkMdnsInit : c.wp (orLog pkMdnsInit) Q out ↔ (c.Unused out .lib ∧ c.Unused out .app) ∧ Q () out := by
  refine wp_orLog (pkMdnsInit_all.mono fun _ => InitAct.of_lib) ?_
  intro Q h
  exact h.2 0

theorem wp_otaServerStart : c.wp (orLog otaServerStart) Q out ↔ (c.Unused out .lib ∧ c.Unused out .app) ∧ Q () out := by
  refine wp_orLog otaServerStart_all ?_
  intro Q h
  exact h 0

theorem wp_pkMqttConnect : c.wp (orLog pkMqttConnect) Q out ↔ (c.Unused out .lib ∧ c.Unused out .app) ∧ Q () out := by
  refine wp_orLog pkMqttConnect_all ?_
  intro Q h
  exact h 0

theorem wp_pkNetlogInit : c.wp pkNetlogInit Q out ↔ c.Unused true .lib ∧ Q () true := by
  simp only [pkNetlogInit, Settings.wp, wp_bind, wp_assert, wp_perform]
  constructor
  · intro h
    exact h.2 1
  · intro h
    refine ⟨trivial, ?_⟩
    rw [wp_succeeds]
    exact ⟨trivial, h⟩

theorem wp_netlog : c.wp (compiled c.netlog pkNetlogInit) Q false ↔ (c.netlog = true → c.Unused true .lib) ∧ Q () c.netlog := by
  cases hnetlog : c.netlog with
  | false => exact ⟨fun h => ⟨Bool.noConfusion, h⟩, And.right⟩
  | true => simpa [compiled] using wp_pkNetlogInit

theorem QuietLibAct.harmless {x : Act} (hlib : out = true → c.Unused true .lib) (h : QuietLibAct x) :
    Harmless c out x ∧ nextOut out x = out := by
  cases x with
  | log src lvl =>
    obtain ⟨rfl, hlvl⟩ := h
    refine ⟨?_, rfl⟩
    cases out with
    | true => exact logUses_eq_nil (hlib rfl) lvl
    | false => simp [Harmless, Settings.logUses, hlvl]
  | _ => exact h.elim

theorem startI2c_all : (startI2c c).All QuietLibAct := by
  refine all_seq pkI2cBegin_all ?_
  cases c.runScanner with
  | false => trivial
  | true => exact pkI2cScan_all

private theorem startI2c_ends : (startI2c c).Ends () := by
  refine Ends.bind pkI2cBegin_ends ?_
  cases c.runScanner with
  | false => rfl
  | true => exact pkI2cScan_ends

theorem wp_startI2c (hlib : out = true → c.Unused true .lib) : c.wp (startI2c c) Q out ↔ True ∧ Q () out := by
  rw [true_and]
  constructor
  · intro h
    exact post_of_wp startI2c_all (fun x hx => (hx.harmless hlib).2) startI2c_ends h
  · intro h
    exact wp_of_all startI2c_all (fun x hx => hx.harmless hlib) fun _ => h

end

/-- Netlog without a line that is flushed, and backtraces without a module whose start can fail with an error. -/
def Settings.Quiet (c : Settings) : Prop :=
  (c.netlog = true → c.libLevel < 1 ∧ c.appLevel < 3 ∧ (c.ota = true ∨ c.mqtt = true → c.appLevel < 1)) ∧
    (c.btraceOnError = true → c.mdns = true ∨ c.ota = true ∨ c.mqtt = true → c.libLevel < 1 ∧ c.appLevel < 1)

/-- No outcome of the calls brings `setup` to something that is used, exactly where the configuration is quiet. -/
theorem wp_setup_iff (c : Settings) : c.wp (setup c) (fun _ _ => True) false ↔ c.Quiet := by
  have hinfo (out : Bool) : c.wp (pklogApp .i) (fun _ _ => True) out ↔ (out = true → c.appLevel < 3) :=
    (and_iff_left trivial).trans logUses_info_iff
  have hline {Q : Unit → Bool → Prop} : c.wp (pklogApp .i) Q false ↔ Q () false :=
    and_iff_right (logUses_info_iff.2 Bool.noConfusion)
  have hrest (hlib : c.netlog = true → c.Unused true .lib) : c.wp (do compiled c.i2c (startI2c c); pklogApp .i)
      (fun _ _ => True) c.netlog ↔ (c.netlog = true → c.appLevel < 3) := by
    rw [wp_seq, wp_compiled (wp_startI2c hlib), hinfo]
    exact and_iff_right fun _ => trivial
  rw [setup, wp_seq, hline, wp_seq, hline, wp_seq, hline, wp_seq, hline, wp_seq, wp_compiled wp_pkMdnsInit, wp_seq,
    wp_netlog, wp_seq, wp_compiled wp_otaServerStart, wp_seq, wp_compiled wp_pkMqttConnect]
  constructor
  · intro h
    obtain ⟨hmdns, hnetlog, hota, hmqtt, hlast⟩ := h
    refine ⟨fun hon => ⟨unused_iff.1 (hnetlog hon) (.inr rfl), (hrest hnetlog).1 hlast hon, ?_⟩, ?_⟩
    · rintro (hmodule | hmodule)
      · exact (unused_both.1 (hota hmodule) (.inr hon)).2
      · exact (unused_both.1 (hmqtt hmodule) (.inr hon)).2
    · rintro htrace (hmodule | hmodule | hmodule)
      · exact unused_both.1 (hmdns hmodule) (.inl htrace)
      · exact unused_both.1 (hota hmodule) (.inl htrace)
      · exact unused_both.1 (hmqtt hmodule) (.inl htrace)
  · intro h
    obtain ⟨hnetlog, hmodules⟩ := h
    have hlib : c.netlog = true → c.Unused true .lib := fun hon => unused_iff.2 fun _ => (hnetlog hon).1
    have hboth (h : c.ota = true ∨ c.mqtt = true) : c.Unused c.netlog .lib ∧ c.Unused c.netlog .app := by
      rw [unused_both]
      rintro (htrace | hon)
      · exact hmodules htrace (.inr h)
      · exact ⟨(hnetlog hon).1, (hnetlog hon).2.2 h⟩
    have hmdns (h : c.mdns = true) : c.Unused false .lib ∧ c.Unused false .app := by
      rw [unused_both]
      rintro (htrace | hout)
      · exact hmodules htrace (.inl h)
      · cases hout
    exact ⟨hmdns, hlib, fun h => hboth (.inl h), fun h => hboth (.inr h), (hrest hlib).2 fun hon => (hnetlog hon).2.1⟩

end Vedruino.Boot
