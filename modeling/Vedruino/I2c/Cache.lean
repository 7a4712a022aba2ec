import Vedruino.I2c.Locks

/-!
# The cached line

The multiplexer is a register that holds the last byte written to it; the tools remember which line they selected last. `Tools.Coherent` says that they are right about it, and every call keeps that, whatever becomes of its transmissions. So it makes no difference that a switch to the remembered line writes nothing.
-/

namespace Vedruino.I2c

/-- The register after a transmission: one that fails or writes no byte leaves it. -/
def hubStep (r : UInt8) (tr : Transmission) : UInt8 :=
  if tr.addr = i2cHubAddr ∧ tr.res = 0 then tr.data.getLast?.getD r else r

def hubAfter (r : UInt8) (sent : List Transmission) : UInt8 := sent.foldl hubStep r

def hubLines : List Int := [0, 1, 2, 3, 4, 5, 6, 7]

/-- The line that the register selects, if any. -/
def selects (sw : Switcher) (r : UInt8) : Option Int := hubLines.find? fun line => hubData sw line = [r]

theorem mem_hubLines {line : Int} : line ∈ hubLines ↔ ¬(line ≥ maxChannel ∨ line < 0) := by
  simp only [hubLines, maxChannel, List.mem_cons, List.not_mem_nil, or_false]
  omega

private theorem hubData_of_selects {sw : Switcher} {r : UInt8} {line : Int} (h : selects sw r = some line) : hubData sw line = [r] := by
  have hfind := List.find?_some h
  simpa using hfind

theorem mem_hubLines_of_selects {sw : Switcher} {r : UInt8} {line : Int} (h : selects sw r = some line) : line ∈ hubLines :=
  List.mem_of_find?_eq_some h

theorem selects_hubData {sw : Switcher} (hnone : sw ≠ .none) (hother : sw ≠ .other) {line : Int} (hline : line ∈ hubLines) :
    ∃ r, hubData sw line = [r] ∧ selects sw r = some line := by
  cases sw with
  | none => exact absurd rfl hnone
  | other => exact absurd rfl hother
  | pca9547 =>
    refine ⟨_, rfl, ?_⟩
    revert line
    decide
  | pw548a =>
    refine ⟨_, rfl, ?_⟩
    revert line
    decide

theorem hubAfter_append (r : UInt8) (sent sent' : List Transmission) :
    hubAfter r (sent ++ sent') = hubAfter (hubAfter r sent) sent' := List.foldl_append

/-- A probe writes no byte. -/
theorem hubStep_probe {r : UInt8} {tr : Transmission} (h : tr.data = []) : hubStep r tr = r := by
  rw [hubStep, h]
  split <;> rfl

variable {Task : Type}

/-- The register, from what it held before the first transmission. -/
def Tools.hub (r₀ : UInt8) (s : Tools Task) : UInt8 := hubAfter r₀ s.bus

def Tools.selected (r₀ : UInt8) (s : Tools Task) : Option Int := selects s.switcher (s.hub r₀)

/-- No line is remembered, or the one that the multiplexer selects. -/
def Tools.Coherent (r₀ : UInt8) (s : Tools Task) : Prop := ∀ line, s.line = some line → line = -1 ∨ s.selected r₀ = some line

/-- What every call keeps. -/
structure Tools.Sound (r₀ : UInt8) (s : Tools Task) : Prop where
  known : s.switcher ≠ .other
  coherent : s.Coherent r₀

/-- A condition on the state that a program keeps where it returns. -/
def Keeps (P : Tools Task → Prop) {α : Type} (x : I2cM Task α) : Prop := ∀ ⦃s⦄ ⦃r : α × Tools Task⦄, P s → x s = some r → P r.2

section

variable {P : Tools Task → Prop} {α β : Type}

theorem Keeps.pure (a : α) : Keeps P (Pure.pure a : I2cM Task α) := by
  intro s r hs h
  cases h
  exact hs

theorem Keeps.bind {x : I2cM Task α} {f : α → I2cM Task β} (hx : Keeps P x) (hf : ∀ a, Keeps P (f a)) : Keeps P (x >>= f) := by
  intro s r hs h
  rw [bind_apply, Option.bind_eq_some_iff] at h
  obtain ⟨r₁, hfirst, hrest⟩ := h
  exact hf r₁.1 (hx hs hfirst) hrest

theorem Keeps.ite {c : Prop} [Decidable c] {x y : I2cM Task α} (hx : Keeps P x) (hy : Keeps P y) : Keeps P (if c then x else y) := by
  split
  · exact hx
  · exact hy

end

variable {r₀ : UInt8} {t : Task} {s : Tools Task} {line : Int}

theorem Tools.hub_select (r₀ : UInt8) (s : Tools Task) (line : Int) (r : UInt8) (hdata : hubData s.switcher line = [r]) :
    (s.select line).hub r₀ = if s.wire s.bus.length = 0 then r else s.hub r₀ := by
  rw [Tools.hub, Tools.select]
  dsimp only
  rw [hubAfter_append, hdata]
  simp [hubAfter, hubStep, Tools.hub]

theorem Tools.Sound.select (h : s.Sound r₀) (hvalid : s.Valid line) : (s.select line).Sound r₀ := by
  obtain ⟨r, hdata, hsel⟩ := selects_hubData hvalid.1 h.known (mem_hubLines.2 hvalid.2)
  refine ⟨h.known, ?_⟩
  intro current hcurrent
  have hhub := Tools.hub_select r₀ s line r hdata
  have hsw : (s.select line).switcher = s.switcher := rfl
  rw [Tools.selected, hhub, hsw]
  rw [Tools.select] at hcurrent
  dsimp only at hcurrent
  split at hcurrent
  next hres =>
    obtain ⟨_, _, rfl⟩ := Option.map_eq_some_iff.1 hcurrent
    rw [if_pos hres]
    exact .inr hsel
  next hres =>
    rw [if_neg hres]
    exact h.coherent current hcurrent

/-- What a switch that returns has done. -/
theorem pkI2cSwitch_cases [DecidableEq Task] {s' : Tools Task} (h : pkI2cSwitch t line s = some ((), s')) :
    ¬ s.Valid line ∧ s' = s ∨
      (s.Valid line ∧ s.Hits line ∧ ∃ m, s' = { s with mutex := some m }) ∨
        s.Valid line ∧ ¬ s.Hits line ∧ s' = s.select line := by
  by_cases hvalid : s.Valid line
  · obtain ⟨m, m', hm, htake⟩ := exists_take_of_switch hvalid h
    by_cases hhits : s.Hits line
    · rw [pkI2cSwitch_hits hvalid hhits hm htake] at h
      cases h
      exact .inr (.inl ⟨hvalid, hhits, m', rfl⟩)
    · rw [pkI2cSwitch_select hvalid hhits hm htake] at h
      cases h
      exact .inr (.inr ⟨hvalid, hhits, rfl⟩)
  · rw [pkI2cSwitch_invalid hvalid] at h
    cases h
    exact .inl ⟨hvalid, rfl⟩

variable [DecidableEq Task]

theorem pkI2cSwitch_keeps (t : Task) (line : Int) : Keeps (Tools.Sound r₀) (pkI2cSwitch t line) := by
  intro s r hs h
  rcases pkI2cSwitch_cases h with ⟨_, heq⟩ | ⟨_, _, m, heq⟩ | ⟨hvalid, _, heq⟩
  · rw [heq]
    exact hs
  · rw [heq]
    exact ⟨hs.known, hs.coherent⟩
  · rw [heq]
    exact hs.select hvalid

theorem pkI2cLock_keeps (t : Task) : Keeps (Tools.Sound r₀) (pkI2cLock t) := by
  intro s r hs h
  obtain ⟨m, m', _, _, rfl⟩ := pkI2cLock_eq_some h
  exact ⟨hs.known, hs.coherent⟩

theorem pkI2cUnlock_keeps (t : Task) : Keeps (Tools.Sound r₀) (pkI2cUnlock t) := by
  intro s r hs h
  obtain ⟨m, m', _, _, rfl⟩ := pkI2cUnlock_eq_some h
  exact ⟨hs.known, hs.coherent⟩

omit [DecidableEq Task] in
theorem report_keeps (rep : Report) : Keeps (Tools.Sound r₀) (report rep : I2cM Task Unit) := by
  intro s r hs h
  cases h
  exact ⟨hs.known, hs.coherent⟩

omit [DecidableEq Task] in
theorem probe_keeps (address : Nat) : Keeps (Tools.Sound r₀) (transmit address [] : I2cM Task UInt8) := by
  intro s r hs h
  cases h
  have hprobe : hubAfter r₀ (s.bus ++ [⟨address, [], s.wire s.bus.length⟩]) = s.hub r₀ := by
    rw [hubAfter_append]
    exact hubStep_probe rfl
  refine ⟨hs.known, ?_⟩
  intro line hline
  rw [Tools.selected, Tools.hub, hprobe]
  exact hs.coherent line hline

omit [DecidableEq Task] in
theorem scanLoop_keeps (addresses : List Nat) (devsNum : Nat) : Keeps (Tools.Sound r₀) (scanLoop addresses devsNum : I2cM Task Nat) := by
  induction addresses generalizing devsNum with
  | nil => exact .pure _
  | cons address addresses ih =>
    apply (probe_keeps address).bind
    intro res
    apply Keeps.ite
    · exact (report_keeps _).bind fun _ => ih _
    · apply Keeps.ite
      · exact (report_keeps _).bind fun _ => ih _
      · exact Keeps.bind (.pure _) fun _ => ih _

theorem pkI2cScanCurrentLine_keeps (t : Task) : Keeps (Tools.Sound r₀) (pkI2cScanCurrentLine t) := by
  apply (pkI2cLock_keeps t).bind
  intro _
  apply (scanLoop_keeps scanAddresses 0).bind
  intro devsNum
  exact (report_keeps _).bind fun _ => pkI2cUnlock_keeps t

theorem scanLinesLoop_keeps (t : Task) (lines : List Int) : Keeps (Tools.Sound r₀) (scanLinesLoop t lines) := by
  induction lines with
  | nil => exact .pure _
  | cons line lines ih =>
    apply (pkI2cSwitch_keeps t line).bind
    intro _
    apply (report_keeps _).bind
    intro _
    exact (pkI2cScanCurrentLine_keeps t).bind fun _ => ih

private theorem pkI2cScan_keeps (t : Task) : Keeps (Tools.Sound r₀) (pkI2cScan t) := by
  have hget : Keeps (Tools.Sound r₀) (get : I2cM Task (Tools Task)) := by
    intro s r hs h
    cases h
    exact hs
  have hline : Keeps (Tools.Sound r₀) (pkI2cGetLine : I2cM Task Int) := by
    intro s r hs h
    cases h
    exact hs
  apply (pkI2cLock_keeps t).bind
  intro _
  apply hget.bind
  intro s
  apply Keeps.ite
  · exact (pkI2cScanCurrentLine_keeps t).bind fun _ => pkI2cUnlock_keeps t
  · apply hline.bind
    intro lastLine
    apply (scanLinesLoop_keeps t scanLines).bind
    intro _
    exact (pkI2cSwitch_keeps t lastLine).bind fun _ => pkI2cUnlock_keeps t

/-- `pk_i2c_begin` forgets the line that was current before. -/
theorem pkI2cBegin_sound {sw : Switcher} (hsw : sw ≠ .other) {s' : Tools Task} (h : pkI2cBegin t sw s = some ((), s')) :
    s'.Sound r₀ := by
  have hfresh : Tools.Sound r₀ ({ s with switcher := sw, mutex := some .free, line := some (-1) } : Tools Task) := by
    refine ⟨hsw, ?_⟩
    intro line hline
    exact .inl (Option.some.inj hline).symm
  rw [pkI2cBegin, bind_apply, Option.bind_eq_some_iff] at h
  obtain ⟨r, hmodify, hswitch⟩ := h
  cases hmodify
  exact Keeps.ite (pkI2cSwitch_keeps t 0) (.pure ()) hfresh hswitch

/-! ### Runs -/

/-- The module is started with one of the enumerators. -/
def Known (_ : World Task) : Label Task → Prop
  | .call _ (.begin sw) => sw ≠ .other
  | _ => True

instance (s : World Task) : DecidablePred (Known s)
  | .call _ (.begin sw) => inferInstanceAs (Decidable (sw ≠ .other))
  | .lock _ | .unlock _ | .call _ (.switch _) | .call _ .scan => .isTrue trivial

omit [DecidableEq Task] in
theorem World.Init.sound {s : World Task} (h : s.Init) : s.tools.Sound r₀ := by
  obtain ⟨hsw, -, hline, -⟩ := h
  refine ⟨?_, ?_⟩
  · rw [hsw]
    exact Switcher.noConfusion
  · intro line hcurrent
    rw [hline] at hcurrent
    cases hcurrent

theorem Tools.Sound.step {s s' : World Task} {l : Label Task} (h : s.tools.Sound r₀) (hl : Known s l) (hstep : s.step l = some s') :
    s'.tools.Sound r₀ := by
  cases l with
  | lock t =>
    obtain ⟨r, hlock, rfl⟩ := Option.map_eq_some_iff.1 hstep
    exact pkI2cLock_keeps t h hlock
  | unlock t =>
    rw [World.step, Option.ite_none_left_eq_some, Option.map_eq_some_iff] at hstep
    obtain ⟨-, r, hunlock, rfl⟩ := hstep
    exact pkI2cUnlock_keeps t h hunlock
  | call t c =>
    obtain ⟨r, hrun, rfl⟩ := Option.map_eq_some_iff.1 hstep
    cases c with
    | begin sw => exact pkI2cBegin_sound hl hrun
    | switch line => exact pkI2cSwitch_keeps t line h hrun
    | scan => exact pkI2cScan_keeps t h hrun

theorem sound_of_reachable {s : World Task} (hs : (i2cTools Task).ReachableUnder Known s) (r₀ : UInt8) : s.tools.Sound r₀ :=
  hs.invariant (fun _ => World.Init.sound) fun _ _ _ h hl hstep => h.step hl hstep

/-! ### Writing always -/

/-- `pk_i2c_switch` without the look at the current line. -/
def alwaysSwitch (t : Task) (line : Int) : I2cM Task Unit := do
  let sw := (← get).switcher
  if sw = .none then return
  if line ≥ maxChannel ∨ line < 0 then return
  pkI2cLock t
  let res ← transmit i2cHubAddr (hubData sw line)
  if res = 0 then pkI2cSetLine t line
  pkI2cUnlock t

/-- What a call leaves behind: the line that is remembered and the register. -/
def Tools.position (r₀ : UInt8) (r : Option (Unit × Tools Task)) : Option (Option Int × UInt8) :=
  r.map fun r => (r.2.line, r.2.hub r₀)

omit [DecidableEq Task] in
theorem Tools.Sound.selected_of_hits (h : s.Sound r₀) (hvalid : s.Valid line) (hhits : s.Hits line) :
    s.line = some line ∧ s.selected r₀ = some line := by
  have hline : s.line.getD (-1) = line := hhits
  have hrange := hvalid.2
  rcases hs : s.line with _ | current
  · rw [hs, Option.getD_none] at hline
    omega
  · rw [hs, Option.getD_some] at hline
    rw [← hline]
    exact ⟨rfl, (h.coherent current hs).resolve_left (by omega)⟩

omit [DecidableEq Task] in
/-- A write of the line that is current already changes neither of them. -/
theorem Tools.Sound.select_of_hits (h : s.Sound r₀) (hvalid : s.Valid line) (hhits : s.Hits line) :
    (s.select line).line = s.line ∧ (s.select line).hub r₀ = s.hub r₀ := by
  obtain ⟨hline, hsel⟩ := h.selected_of_hits hvalid hhits
  constructor
  · rw [Tools.select, hline]
    split <;> rfl
  · rw [Tools.hub_select r₀ s line _ (hubData_of_selects hsel), ite_self]

private theorem alwaysSwitch_position (h : s.Sound r₀) (t : Task) (line : Int) :
    Tools.position r₀ (alwaysSwitch t line s) = Tools.position r₀ (pkI2cSwitch t line s) := by
  by_cases hvalid : s.Valid line
  · have halways : alwaysSwitch t line s = (pkI2cLock t s).bind fun r => (do
        let res ← transmit i2cHubAddr (hubData s.switcher line)
        if res = 0 then pkI2cSetLine t line
        pkI2cUnlock t : I2cM Task Unit) r.2 := by
      rw [alwaysSwitch, bind_apply, get_apply, Option.bind_some]
      dsimp only
      rw [if_neg hvalid.1, if_neg hvalid.2, bind_apply]
    rcases hlock : pkI2cLock t s with _ | r
    · rw [halways, hlock, pkI2cSwitch, bind_apply, get_apply, Option.bind_some]
      dsimp only
      rw [if_neg hvalid.1, if_neg hvalid.2, bind_apply, hlock]
      rfl
    · obtain ⟨m, m', hm, htake, rfl⟩ := pkI2cLock_eq_some hlock
      rw [halways, hlock, Option.bind_some, writeLine_eq rfl hm htake]
      by_cases hhits : s.Hits line
      · obtain ⟨hline, hhub⟩ := h.select_of_hits hvalid hhits
        rw [pkI2cSwitch_hits hvalid hhits hm htake, Tools.position, Tools.position, Option.map_some, Option.map_some]
        exact congrArg some (Prod.ext hline hhub)
      · rw [pkI2cSwitch_select hvalid hhits hm htake]
  · have hinvalid := hvalid
    rw [Tools.Valid, not_and_or, not_not, not_not] at hinvalid
    rw [pkI2cSwitch_invalid hvalid, alwaysSwitch, bind_apply, get_apply, Option.bind_some]
    dsimp only
    by_cases hsw : s.switcher = .none
    · rw [if_pos hsw, pure_apply]
    · rw [if_neg hsw, if_pos (hinvalid.resolve_left hsw), pure_apply]

/-- A switch to a line that the multiplexer has selects it, unless its transmission fails. -/
theorem selected_of_pkI2cSwitch (h : s.Sound r₀) (hvalid : s.Valid line) {s' : Tools Task}
    (hrun : pkI2cSwitch t line s = some ((), s')) (hsent : ∀ tr ∈ s'.bus.drop s.bus.length, tr.res = 0) :
    s'.selected r₀ = some line := by
  rcases pkI2cSwitch_cases hrun with ⟨hinvalid, _⟩ | ⟨_, hhits, m, rfl⟩ | ⟨_, _, rfl⟩
  · exact absurd hvalid hinvalid
  · exact (h.selected_of_hits hvalid hhits).2
  · obtain ⟨r, hdata, hsel⟩ := selects_hubData hvalid.1 h.known (mem_hubLines.2 hvalid.2)
    have hres : s.wire s.bus.length = 0 := by
      rw [Tools.select] at hsent
      dsimp only at hsent
      rw [List.drop_left] at hsent
      exact hsent _ (List.mem_singleton_self _)
    rw [Tools.selected, Tools.hub_select r₀ s line r hdata, if_pos hres]
    exact hsel

/-- **In every run the remembered line is the one that the multiplexer selects, if there is one. So a switch leaves the line and the register as a switch that always writes would, and it selects the line where its transmission does not fail.** -/
theorem lineCache_coherent {s : World Task} (hs : (i2cTools Task).ReachableUnder Known s) (r₀ : UInt8) :
    s.tools.Coherent r₀ ∧
      (∀ t line, Tools.position r₀ (alwaysSwitch t line s.tools) = Tools.position r₀ (pkI2cSwitch t line s.tools)) ∧
        ∀ t line s', s.tools.Valid line → pkI2cSwitch t line s.tools = some ((), s') →
          (∀ tr ∈ s'.bus.drop s.tools.bus.length, tr.res = 0) → s'.selected r₀ = some line := by
  have hsound := sound_of_reachable hs r₀
  refine ⟨hsound.coherent, fun t line => alwaysSwitch_position hsound t line, ?_⟩
  intro t line s' hvalid hrun hsent
  exact selected_of_pkI2cSwitch hsound hvalid hrun hsent

theorem pca9547Begun_known : (i2cTools Bool).ReachableUnder Known pca9547Begun :=
  System.reachableUnder_runSteps [.call true (.begin .pca9547)] (.init offWorld_init) rfl

theorem lineCache_coherent_begun : pca9547Begun.tools.Coherent 0 ∧ pca9547Begun.tools.selected 0 = some 0 :=
  have hcoherent := (lineCache_coherent pca9547Begun_known 0).1
  ⟨hcoherent, (hcoherent 0 rfl).resolve_left (by decide)⟩

end Vedruino.I2c
