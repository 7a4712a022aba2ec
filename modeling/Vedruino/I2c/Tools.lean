import Vedruino.Lib.RecMutex

/-!
# The I2C tools

Each function is a program on the state of the module; it has no result where an assertion fails or a null mutex is taken. The results of the transmissions are given in advance, in the order in which they are made. `switched` is what `pk_i2c_switch` does to the state, and the other functions are made of it.
-/

namespace Vedruino.I2c

/-- `pkI2cSwitcher_t`; `other` is a value of the type that is none of the enumerators. -/
inductive Switcher
  | none | pca9547 | pw548a | other
  deriving DecidableEq, Repr

/-- A transmission: the address, the bytes written and what `Wire.endTransmission` returns. -/
structure Transmission where
  addr : Nat
  data : List UInt8
  res : UInt8
  deriving DecidableEq, Repr

/-- What `pk_i2c_scan` logs. -/
inductive Report
  | switched (line : Int)
  | found (address : Nat)
  | failed (address : Nat) (res : UInt8)
  | count (devsNum : Nat)
  deriving DecidableEq, Repr

/-- The static variables, with a null mutex or queue as `none`, and what has gone over the bus. `line` is the item of `current_i2c_line`. -/
structure Tools (Task : Type) where
  switcher : Switcher
  mutex : Option (RecMutex Task)
  line : Option Int
  wire : Nat → UInt8
  bus : List Transmission
  reports : List Report

abbrev I2cM (Task : Type) := StateT (Tools Task) Option

def i2cHubAddr : Nat := 0x70

def maxChannel : Int := 0x08

variable {Task : Type}

section

variable {α β : Type}

@[simp] theorem bind_apply (x : I2cM Task α) (f : α → I2cM Task β) (s : Tools Task) :
    (x >>= f) s = (x s).bind fun r => f r.1 r.2 := rfl

@[simp] theorem pure_apply (a : α) (s : Tools Task) : (pure a : I2cM Task α) s = some (a, s) := rfl

@[simp] theorem get_apply (s : Tools Task) : (get : I2cM Task (Tools Task)) s = some (s, s) := rfl

end

variable [DecidableEq Task]

/-- `pk_i2c_lock`. -/
def pkI2cLock (t : Task) : I2cM Task Unit := fun s =>
  (s.mutex.bind (RecMutex.take t)).map fun m => ((), { s with mutex := some m })

/-- `pk_i2c_unlock`. -/
def pkI2cUnlock (t : Task) : I2cM Task Unit := fun s =>
  (s.mutex.bind (RecMutex.give t)).map fun m => ((), { s with mutex := some m })

/-- `Wire.beginTransmission`, `Wire.write` and `Wire.endTransmission`. -/
def transmit (addr : Nat) (data : List UInt8) : I2cM Task UInt8 := fun s =>
  let res := s.wire s.bus.length
  some (res, { s with bus := s.bus ++ [⟨addr, data, res⟩] })

def report (r : Report) : I2cM Task Unit := fun s => some ((), { s with reports := s.reports ++ [r] })

/-- `-1` where the queue is empty. -/
def pkI2cGetLine : I2cM Task Int := fun s => some (s.line.getD (-1), s)

/-- The item of the queue is received and `line` is sent, which always fits then; nothing is sent where the queue is empty. -/
def setQueue (line : Int) : I2cM Task Unit := fun s => some ((), { s with line := s.line.map fun _ => line })

def pkI2cSetLine (t : Task) (line : Int) : I2cM Task Unit := do
  pkI2cLock t
  setQueue line
  pkI2cUnlock t

/-- The bytes written to the multiplexer; it is enabled by bit 3 or has one bit for each line. -/
def hubData (sw : Switcher) (line : Int) : List UInt8 :=
  match sw with
  | .pca9547 => [UInt8.ofNat line.toNat ||| 0x08]
  | .pw548a => [0x01 <<< UInt8.ofNat line.toNat]
  | .none | .other => []

def pkI2cSwitch (t : Task) (line : Int) : I2cM Task Unit := do
  let sw := (← get).switcher
  if sw = .none then return
  if line ≥ maxChannel ∨ line < 0 then return
  pkI2cLock t
  -- this return leaves the mutex taken
  if (← pkI2cGetLine) = line then return
  let res ← transmit i2cHubAddr (hubData sw line)
  if res = 0 then pkI2cSetLine t line
  pkI2cUnlock t

/-- The addresses from 8 to 126. -/
def scanAddresses : List Nat := List.range' 8 119

/-- The loop of `pk_i2c_scan_current_line`: an address is not found where the result is 2. -/
def scanLoop : List Nat → Nat → I2cM Task Nat
  | [], devsNum => pure devsNum
  | address :: addresses, devsNum => do
    let res ← transmit address []
    if res = 0 then
      report (.found address)
      scanLoop addresses (devsNum + 1)
    else
      if res ≠ 2 then report (.failed address res)
      scanLoop addresses devsNum

def pkI2cScanCurrentLine (t : Task) : I2cM Task Unit := do
  pkI2cLock t
  let devsNum ← scanLoop scanAddresses 0
  report (.count devsNum)
  pkI2cUnlock t

/-- The lines that `pk_i2c_scan` goes through. -/
def scanLines : List Int := [3, 4, 5, 6, 7]

def scanLinesLoop (t : Task) : List Int → I2cM Task Unit
  | [] => pure ()
  | line :: lines => do
    pkI2cSwitch t line
    report (.switched line)
    pkI2cScanCurrentLine t
    scanLinesLoop t lines

def pkI2cScan (t : Task) : I2cM Task Unit := do
  pkI2cLock t
  if (← get).switcher = .none then pkI2cScanCurrentLine t
  else
    let lastLine ← pkI2cGetLine
    scanLinesLoop t scanLines
    pkI2cSwitch t lastLine
  pkI2cUnlock t

/-- The mutex and the queue are new, and the queue gets `-1`. -/
def pkI2cBegin (t : Task) (sw : Switcher) : I2cM Task Unit := do
  modify fun s => { s with switcher := sw, mutex := some .free, line := some (-1) }
  if sw ≠ .none then pkI2cSwitch t 0

/-- A call of one of the functions by a task. -/
inductive Call
  | begin (sw : Switcher)
  | switch (line : Int)
  | scan
  deriving DecidableEq, Repr

def Call.run (t : Task) : Call → I2cM Task Unit
  | .begin sw => pkI2cBegin t sw
  | .switch line => pkI2cSwitch t line
  | .scan => pkI2cScan t

/-! ### What the functions do to the state -/

/-- A line that the multiplexer has, if there is one. -/
def Tools.Valid (s : Tools Task) (line : Int) : Prop := s.switcher ≠ .none ∧ ¬ (line ≥ maxChannel ∨ line < 0)

instance (s : Tools Task) (line : Int) : Decidable (s.Valid line) := inferInstanceAs (Decidable (_ ∧ _))

/-- `pk_i2c_get_line` returns the line that is asked for. -/
def Tools.Hits (s : Tools Task) (line : Int) : Prop := s.line.getD (-1) = line

instance (s : Tools Task) (line : Int) : Decidable (s.Hits line) := inferInstanceAs (Decidable (_ = _))

/-- A transmission that selects the line if it succeeds. -/
def Tools.select (s : Tools Task) (line : Int) : Tools Task :=
  let res := s.wire s.bus.length
  { s with
    bus := s.bus ++ [⟨i2cHubAddr, hubData s.switcher line, res⟩]
    line := if res = 0 then s.line.map fun _ => line else s.line }

/-- The transmissions of a scan from the `n`th transmission on. -/
def probes (wire : Nat → UInt8) : Nat → List Nat → List Transmission
  | _, [] => []
  | n, address :: addresses => ⟨address, [], wire n⟩ :: probes wire (n + 1) addresses

/-- What is logged of a probe. -/
def probeReports (tr : Transmission) : List Report :=
  if tr.res = 0 then [.found tr.addr] else if tr.res ≠ 2 then [.failed tr.addr tr.res] else []

/-- A round of `pk_i2c_scan` after its switch, in which `n` devices are found. -/
def Tools.scanned (s : Tools Task) (line : Int) (n : Nat) : Tools Task :=
  let sent := probes s.wire s.bus.length scanAddresses
  { s with bus := s.bus ++ sent, reports := s.reports ++ .switched line :: (sent.flatMap probeReports ++ [.count n]) }

variable {t : Task} {s : Tools Task} {m m' : RecMutex Task}

theorem pkI2cLock_eq (hm : s.mutex = some m) (htake : m.take t = some m') :
    pkI2cLock t s = some ((), { s with mutex := some m' }) := by
  rw [pkI2cLock, hm, Option.bind_some, htake]
  rfl

theorem pkI2cUnlock_eq (hm : s.mutex = some m) (hgive : m.give t = some m') :
    pkI2cUnlock t s = some ((), { s with mutex := some m' }) := by
  rw [pkI2cUnlock, hm, Option.bind_some, hgive]
  rfl

theorem pkI2cLock_eq_some {r : Unit × Tools Task} (h : pkI2cLock t s = some r) :
    ∃ m m', s.mutex = some m ∧ m.take t = some m' ∧ r = ((), { s with mutex := some m' }) := by
  rw [pkI2cLock, Option.map_eq_some_iff] at h
  obtain ⟨m', htake, rfl⟩ := h
  rw [Option.bind_eq_some_iff] at htake
  obtain ⟨m, hm, htake⟩ := htake
  exact ⟨m, m', hm, htake, rfl⟩

theorem pkI2cUnlock_eq_some {r : Unit × Tools Task} (h : pkI2cUnlock t s = some r) :
    ∃ m m', s.mutex = some m ∧ m.give t = some m' ∧ r = ((), { s with mutex := some m' }) := by
  rw [pkI2cUnlock, Option.map_eq_some_iff] at h
  obtain ⟨m', hgive, rfl⟩ := h
  rw [Option.bind_eq_some_iff] at hgive
  obtain ⟨m, hm, hgive⟩ := hgive
  exact ⟨m, m', hm, hgive, rfl⟩

theorem pkI2cSetLine_eq (hm : s.mutex = some m) (htake : m.take t = some m') (line : Int) :
    pkI2cSetLine t line s = some ((), { s with line := s.line.map fun _ => line }) := by
  have hlock := pkI2cLock_eq hm htake
  have hunlock := pkI2cUnlock_eq (t := t)
    (s := { s with mutex := some m', line := s.line.map fun _ => line }) rfl (RecMutex.give_of_take htake)
  rw [pkI2cSetLine, bind_apply, hlock, Option.bind_some, bind_apply, setQueue, Option.bind_some, hunlock, hm]

theorem pkI2cSwitch_invalid {line : Int} (h : ¬ s.Valid line) : pkI2cSwitch t line s = some ((), s) := by
  rw [Tools.Valid, not_and_or, not_not, not_not] at h
  rw [pkI2cSwitch, bind_apply, get_apply, Option.bind_some]
  dsimp only
  by_cases hsw : s.switcher = .none
  · rw [if_pos hsw, pure_apply]
  · rw [if_neg hsw, if_pos (h.resolve_left hsw), pure_apply]

/-- For a valid line the switch takes the mutex, and then looks at the current line. -/
theorem pkI2cSwitch_valid {line : Int} (hvalid : s.Valid line) (hm : s.mutex = some m) (htake : m.take t = some m') :
    pkI2cSwitch t line s = (do
      if s.line.getD (-1) = line then return
      let res ← transmit i2cHubAddr (hubData s.switcher line)
      if res = 0 then pkI2cSetLine t line
      pkI2cUnlock t : I2cM Task Unit) { s with mutex := some m' } := by
  rw [pkI2cSwitch, bind_apply, get_apply, Option.bind_some]
  dsimp only
  rw [if_neg hvalid.1, if_neg hvalid.2, bind_apply, pkI2cLock_eq hm htake, Option.bind_some, bind_apply, pkI2cGetLine,
    Option.bind_some]

theorem pkI2cSwitch_hits {line : Int} (hvalid : s.Valid line) (hhits : s.Hits line) (hm : s.mutex = some m)
    (htake : m.take t = some m') : pkI2cSwitch t line s = some ((), { s with mutex := some m' }) := by
  have hline : s.line.getD (-1) = line := hhits
  rw [pkI2cSwitch_valid hvalid hm htake, if_pos hline, pure_apply]

/-- The write to the multiplexer, with the mutex taken: where it succeeds, the line becomes the current one. -/
theorem writeLine_eq {line : Int} {sw : Switcher} (hsw : s.switcher = sw) (hm : s.mutex = some m) (htake : m.take t = some m') :
    (do
      let res ← transmit i2cHubAddr (hubData sw line)
      if res = 0 then pkI2cSetLine t line
      pkI2cUnlock t : I2cM Task Unit) { s with mutex := some m' } = some ((), s.select line) := by
  obtain ⟨m'', htake'⟩ := RecMutex.exists_take_of_take htake
  rw [bind_apply, transmit, Option.bind_some]
  dsimp only
  by_cases hres : s.wire s.bus.length = 0
  · rw [if_pos hres, bind_apply, pkI2cSetLine_eq rfl htake', Option.bind_some, pkI2cUnlock_eq rfl (RecMutex.give_of_take htake),
      ← hm, ← hsw, Tools.select, if_pos hres]
  · rw [if_neg hres, pkI2cUnlock_eq rfl (RecMutex.give_of_take htake), ← hm, ← hsw, Tools.select, if_neg hres]

theorem pkI2cSwitch_select {line : Int} (hvalid : s.Valid line) (hhits : ¬ s.Hits line) (hm : s.mutex = some m)
    (htake : m.take t = some m') : pkI2cSwitch t line s = some ((), s.select line) := by
  have hline : s.line.getD (-1) ≠ line := hhits
  rw [pkI2cSwitch_valid hvalid hm htake, if_neg hline]
  exact writeLine_eq rfl hm htake

theorem length_probes (wire : Nat → UInt8) (n : Nat) (addresses : List Nat) :
    (probes wire n addresses).length = addresses.length := by
  induction addresses generalizing n with
  | nil => rfl
  | cons address addresses ih => rw [probes, List.length_cons, List.length_cons, ih]

omit [DecidableEq Task] in
/-- The loop over the addresses makes a transmission for each, and otherwise only reports. -/
theorem scanLoop_eq (addresses : List Nat) (devsNum : Nat) (s : Tools Task) :
    ∃ n, scanLoop addresses devsNum s = some (n,
      { s with
        bus := s.bus ++ probes s.wire s.bus.length addresses
        reports := s.reports ++ (probes s.wire s.bus.length addresses).flatMap probeReports }) := by
  induction addresses generalizing devsNum s with
  | nil =>
    refine ⟨devsNum, ?_⟩
    simp [scanLoop, probes]
  | cons address addresses ih =>
    have hnext (devsNum : Nat) (rs : List Report) (hrs : probeReports ⟨address, [], s.wire s.bus.length⟩ = rs) :
        ∃ n, scanLoop addresses devsNum
            { s with bus := s.bus ++ [⟨address, [], s.wire s.bus.length⟩], reports := s.reports ++ rs } = some (n,
          { s with
            bus := s.bus ++ probes s.wire s.bus.length (address :: addresses)
            reports := s.reports ++ (probes s.wire s.bus.length (address :: addresses)).flatMap probeReports }) := by
      obtain ⟨n, heq⟩ := ih devsNum
        { s with bus := s.bus ++ [⟨address, [], s.wire s.bus.length⟩], reports := s.reports ++ rs }
      refine ⟨n, ?_⟩
      rw [heq, probes, List.flatMap_cons, hrs]
      simp
    rw [scanLoop, bind_apply, transmit, Option.bind_some]
    dsimp only
    by_cases hfound : s.wire s.bus.length = 0
    · rw [if_pos hfound, bind_apply, report, Option.bind_some]
      exact hnext _ _ (if_pos hfound)
    · rw [if_neg hfound]
      by_cases hfailed : s.wire s.bus.length ≠ 2
      · rw [if_pos hfailed, bind_apply, report, Option.bind_some]
        exact hnext _ _ ((if_neg hfound).trans (if_pos hfailed))
      · have hskip := hnext devsNum [] ((if_neg hfound).trans (if_neg hfailed))
        rw [List.append_nil] at hskip
        rw [if_neg hfailed]
        exact hskip

theorem pkI2cScanCurrentLine_eq (hm : s.mutex = some m) (htake : m.take t = some m') :
    ∃ n, pkI2cScanCurrentLine t s = some ((),
      { s with
        bus := s.bus ++ probes s.wire s.bus.length scanAddresses
        reports := s.reports ++ (probes s.wire s.bus.length scanAddresses).flatMap probeReports ++ [.count n] }) := by
  obtain ⟨n, heq⟩ := scanLoop_eq scanAddresses 0 { s with mutex := some m' }
  refine ⟨n, ?_⟩
  rw [pkI2cScanCurrentLine, bind_apply, pkI2cLock_eq hm htake, Option.bind_some, bind_apply, heq, Option.bind_some, bind_apply,
    report, Option.bind_some, pkI2cUnlock_eq rfl (RecMutex.give_of_take htake), hm]

end Vedruino.I2c
