import Mathlib.Logic.Function.Basic
import Vedruino.Lib.Runs
import Vedruino.I2c.Tools

/-!
# The lock of the I2C tools

A task that asks for the line that the multiplexer is already on leaves `pk_i2c_switch` with the mutex taken once more than before. `Tools.Balanced` says when a call does not get there, and `lockBalance_iff` that these are exactly the calls that give back what they take.
-/

namespace Vedruino.I2c

variable {Task : Type}

/-- A mutex that does not exist yet is held by no task. -/
def Tools.lock (s : Tools Task) : RecMutex Task := s.mutex.getD .free

/-! ### When a call gives back what it takes -/

/-- The result of the transmission that `pk_i2c_scan` selects the line with, after a scan of each line before. -/
def Tools.Selects (s : Tools Task) (line : Int) : Prop :=
  s.wire (s.bus.length + (line - 3).toNat * (scanAddresses.length + 1)) = 0

instance (s : Tools Task) (line : Int) : Decidable (s.Selects line) := inferInstanceAs (Decidable (_ = _))

/-- Before the scan reaches the current line it has switched to another one, and when it goes back it is on another one. -/
def Tools.LeavesLine (s : Tools Task) (line : Int) : Prop :=
  (line ∈ scanLines → ∃ l ∈ scanLines, l < line ∧ s.Selects l) ∧
    (line ∈ scanLines ∧ ¬ s.Selects line ∨ ∃ l ∈ scanLines, line < l ∧ s.Selects l)

instance (s : Tools Task) (line : Int) : Decidable (s.LeavesLine line) := inferInstanceAs (Decidable (_ ∧ _))

def Tools.Balanced (s : Tools Task) : Call → Prop
  | .begin _ => s.lock = .free
  | .switch line => ¬ (s.Valid line ∧ s.Hits line)
  | .scan => s.Valid (s.line.getD (-1)) → s.LeavesLine (s.line.getD (-1))

instance [DecidableEq Task] (s : Tools Task) (c : Call) : Decidable (s.Balanced c) := by
  cases c <;> unfold Tools.Balanced <;> infer_instance

/-! ### Runs -/

/-- `own` counts the locks that a task has taken by its own calls of `pk_i2c_lock` and not given back yet. -/
structure World (Task : Type) where
  tools : Tools Task
  own : Task → Nat

inductive Label (Task : Type)
  | lock (t : Task)
  | unlock (t : Task)
  | call (t : Task) (c : Call)

variable [DecidableEq Task]

/-- A task unlocks what it has locked itself. A call takes the mutex before it uses what is shared, so that no step of another task falls inside it. -/
def World.step (s : World Task) : Label Task → Option (World Task)
  | .lock t => (pkI2cLock t s.tools).map fun r => ⟨r.2, Function.update s.own t (s.own t + 1)⟩
  | .unlock t =>
    if s.own t = 0 then none
    else (pkI2cUnlock t s.tools).map fun r => ⟨r.2, Function.update s.own t (s.own t - 1)⟩
  | .call t c => (c.run t s.tools).map fun r => ⟨r.2, s.own⟩

def World.Init (s : World Task) : Prop :=
  s.tools.switcher = .none ∧ s.tools.mutex = none ∧ s.tools.line = none ∧ s.own = fun _ => 0

def i2cTools (Task : Type) [DecidableEq Task] : System (World Task) (Label Task) := .ofStep World.Init World.step

/-- Every call of the run gives back what it takes. -/
def Balances (s : World Task) : Label Task → Prop
  | .call _ c => s.tools.Balanced c
  | _ => True

instance (s : World Task) : DecidablePred (Balances s) := fun l => by
  cases l <;> unfold Balances <;> infer_instance

/-! ### Calls that have the mutex -/

/-- How often the switches of `pk_i2c_scan` leave the mutex taken, from a current line and a number of transmissions made. -/
def leaks (wire : Nat → UInt8) : List Int → Int → Nat → Nat
  | [], _, _ => 0
  | line :: lines, current, n =>
    if current = line then leaks wire lines current (n + scanAddresses.length) + 1
    else leaks wire lines (if wire n = 0 then line else current) (n + 1 + scanAddresses.length)

/-- The current line after the switches. -/
def lineAfter (wire : Nat → UInt8) : List Int → Int → Nat → Int
  | [], current, _ => current
  | line :: lines, current, n =>
    if current = line then lineAfter wire lines current (n + scanAddresses.length)
    else lineAfter wire lines (if wire n = 0 then line else current) (n + 1 + scanAddresses.length)

/-- The `k` lines from `a` on. -/
def linesFrom : Nat → Int → List Int
  | 0, _ => []
  | k + 1, a => a :: linesFrom k (a + 1)

/-- The transmission that selects `line` succeeds, when the `k` lines from `a` on are switched to and none of them is skipped. -/
def SelectsIn (wire : Nat → UInt8) (n k : Nat) (a line : Int) : Prop :=
  a ≤ line ∧ line < a + k ∧ wire (n + (line - a).toNat * (scanAddresses.length + 1)) = 0

variable {wire : Nat → UInt8} {n k : Nat} {a c line : Int}

theorem selectsIn_first : SelectsIn wire n (k + 1) a a ↔ wire n = 0 := by
  have hlast : a < a + ↑(k + 1) := by omega
  rw [SelectsIn, Int.sub_self, Int.toNat_zero, Nat.zero_mul, and_iff_right (Int.le_refl a), and_iff_right hlast]
  rfl

theorem selectsIn_tail :
    SelectsIn wire (n + 1 + scanAddresses.length) k (a + 1) line ↔ a < line ∧ SelectsIn wire n (k + 1) a line := by
  by_cases hlt : a < line
  · have hrange : a ≤ line ∧ line < a + ↑(k + 1) ↔ a + 1 ≤ line ∧ line < a + 1 + k := by omega
    have hpos : (line - a).toNat = (line - (a + 1)).toNat + 1 := by omega
    rw [and_iff_right hlt, SelectsIn, SelectsIn, ← and_assoc, ← and_assoc, hrange, hpos, Nat.succ_mul,
      Nat.add_comm _ (scanAddresses.length + 1), ← Nat.add_assoc, Nat.add_assoc n, Nat.add_comm 1]
  · rw [SelectsIn]
    omega

/-- No line is skipped where the current one is not among them. -/
theorem leaks_of_not_mem (h : c < a ∨ a + k ≤ c) : leaks wire (linesFrom k a) c n = 0 := by
  induction k generalizing n a c with
  | zero => rfl
  | succ k ih =>
    rw [linesFrom, leaks, if_neg (by omega)]
    apply ih
    split <;> omega

/-- The current line is then the last one that could be selected, or still the one from before. -/
theorem lineAfter_of_lt (h : c < a) : lineAfter wire (linesFrom k a) c n = line ↔
    (c = line ∨ SelectsIn wire n k a line) ∧ ∀ l, line < l → ¬ SelectsIn wire n k a l := by
  induction k generalizing n a c with
  | zero =>
    have hnone : ∀ l, ¬ SelectsIn wire n 0 a l := by
      intro l hl
      rw [SelectsIn] at hl
      omega
    simp only [linesFrom, lineAfter, hnone, or_false, not_false_eq_true, implies_true, and_true]
  | succ k ih =>
    have hfirst : SelectsIn wire n (k + 1) a a ↔ wire n = 0 := selectsIn_first
    have hlow : ∀ l, SelectsIn wire n (k + 1) a l → a ≤ l := fun l hl => hl.1
    rw [linesFrom, lineAfter, if_neg (by omega), ih (by split <;> omega)]
    simp only [selectsIn_tail]
    split
    next hsel =>
      have hzero := hfirst.2 hsel
      grind
    next hsel =>
      have hzero := mt hfirst.1 hsel
      grind

private theorem leaks_and_lineAfter (hc : a ≤ c) (hk : c < a + k) :
    leaks wire (linesFrom k a) c n = 0 ∧ lineAfter wire (linesFrom k a) c n ≠ c ↔
      (∃ l, l < c ∧ SelectsIn wire n k a l) ∧ (¬ SelectsIn wire n k a c ∨ ∃ l, c < l ∧ SelectsIn wire n k a l) := by
  induction k generalizing n a c with
  | zero => omega
  | succ k ih =>
    have hfirst : SelectsIn wire n (k + 1) a a ↔ wire n = 0 := selectsIn_first
    have hlow : ∀ l, SelectsIn wire n (k + 1) a l → a ≤ l := fun l hl => hl.1
    rw [linesFrom, leaks, lineAfter]
    by_cases hskip : c = a
    · rw [if_pos hskip]
      constructor
      · intro h
        omega
      · rintro ⟨⟨l, hl, hsel⟩, -⟩
        have := hlow l hsel
        omega
    · rw [if_neg hskip, if_neg hskip]
      split
      next hsel =>
        have hzero := hfirst.2 hsel
        rw [leaks_of_not_mem (.inl (by omega)), Ne, lineAfter_of_lt (by omega)]
        simp only [selectsIn_tail]
        grind
      next hsel =>
        have hzero := mt hfirst.1 hsel
        rw [ih (by omega) (by omega)]
        simp only [selectsIn_tail]
        grind

theorem mem_scanLines : line ∈ scanLines ↔ 3 ≤ line ∧ line < 3 + (5 : Nat) := by
  simp only [scanLines, List.mem_cons, List.not_mem_nil, or_false]
  omega

variable {t : Task} {s : Tools Task}

omit [DecidableEq Task] in
theorem Tools.select_line {line current : Int} (hline : s.line = some current) :
    (s.select line).line = some (if s.wire s.bus.length = 0 then line else current) := by
  rw [select, hline]
  dsimp only
  split <;> rfl

/-- A round of the loop is the switch, and a scan that makes a transmission for each address. -/
theorem scanLinesLoop_cons {s₁ : Tools Task} {m m' : RecMutex Task} {line : Int} (lines : List Int)
    (hswitch : pkI2cSwitch t line s = some ((), s₁)) (hm : s₁.mutex = some m) (htake : m.take t = some m') :
    ∃ n, scanLinesLoop t (line :: lines) s = scanLinesLoop t lines (s₁.scanned line n) := by
  obtain ⟨n, hscan⟩ := pkI2cScanCurrentLine_eq (t := t)
    (s := { s₁ with reports := s₁.reports ++ [.switched line] }) hm htake
  refine ⟨n, ?_⟩
  rw [scanLinesLoop, bind_apply, hswitch, Option.bind_some, bind_apply, report, Option.bind_some, bind_apply, hscan,
    Option.bind_some]
  simp [Tools.scanned]

omit [DecidableEq Task] in
theorem Tools.length_scanned (s : Tools Task) (line : Int) (n : Nat) :
    (s.scanned line n).bus.length = s.bus.length + scanAddresses.length := by
  rw [Tools.scanned, List.length_append, length_probes]

theorem scanLinesLoop_eq {lines : List Int} (hlines : ∀ line ∈ lines, 0 ≤ line ∧ line < maxChannel) {n : Nat} {current : Int}
    (hsw : s.switcher ≠ .none) (hm : s.mutex = some (.held t n)) (hline : s.line = some current) :
    ∃ bus reports, scanLinesLoop t lines s = some ((),
      { s with
        mutex := some (.held t (n + leaks s.wire lines current s.bus.length))
        line := some (lineAfter s.wire lines current s.bus.length)
        bus, reports }) := by
  induction lines generalizing s n current with
  | nil =>
    refine ⟨s.bus, s.reports, ?_⟩
    rw [scanLinesLoop, pure_apply, leaks, lineAfter, Nat.add_zero, ← hm, ← hline]
  | cons line lines ih =>
    obtain ⟨hlow, hhigh⟩ := hlines line List.mem_cons_self
    have hvalid : s.Valid line := ⟨hsw, by omega⟩
    have hget : s.line.getD (-1) = current := by rw [hline, Option.getD_some]
    by_cases hhits : current = line
    · have hswitch := pkI2cSwitch_hits hvalid (hget.trans hhits) hm (RecMutex.take_held t n)
      obtain ⟨found, hround⟩ := scanLinesLoop_cons lines hswitch rfl (RecMutex.take_held t (n + 1))
      obtain ⟨bus', reports', hloop⟩ := ih (s := Tools.scanned { s with mutex := some (.held t (n + 1)) } line found)
        (fun l hl => hlines l (List.mem_cons_of_mem _ hl)) hsw rfl hline
      refine ⟨bus', reports', ?_⟩
      rw [hround, hloop, Tools.length_scanned, leaks, lineAfter, if_pos hhits, if_pos hhits, Nat.add_right_comm, Nat.add_assoc]
      rfl
    · have hswitch := pkI2cSwitch_select hvalid (fun h => hhits (hget.symm.trans h)) hm (RecMutex.take_held t n)
      obtain ⟨found, hround⟩ := scanLinesLoop_cons lines hswitch hm (RecMutex.take_held t n)
      obtain ⟨bus', reports', hloop⟩ := ih (s := (s.select line).scanned line found)
        (fun l hl => hlines l (List.mem_cons_of_mem _ hl)) hsw hm (Tools.select_line hline)
      refine ⟨bus', reports', ?_⟩
      rw [hround, hloop, Tools.length_scanned, leaks, lineAfter, if_neg hhits, if_neg hhits, Tools.select, List.length_append,
        List.length_singleton]
      rfl

omit [DecidableEq Task] in
theorem selectsIn_scanLines {line : Int} :
    SelectsIn s.wire s.bus.length 5 3 line ↔ line ∈ scanLines ∧ s.Selects line := by
  rw [SelectsIn, mem_scanLines, Tools.Selects, and_assoc]

omit [DecidableEq Task] in
theorem leavesLine_iff {current : Int} (h : s.Valid current) : s.LeavesLine current ↔
    leaks s.wire scanLines current s.bus.length = 0 ∧ lineAfter s.wire scanLines current s.bus.length ≠ current := by
  have hlines : scanLines = linesFrom 5 3 := rfl
  by_cases hmem : current ∈ scanLines
  · obtain ⟨hlow, hhigh⟩ := mem_scanLines.1 hmem
    rw [hlines, leaks_and_lineAfter hlow hhigh]
    simp only [selectsIn_scanLines]
    rw [Tools.LeavesLine]
    grind
  · have hlow : current < 3 := by
      have hhigh : current < 8 := Int.not_le.1 (not_or.1 h.2).1
      rw [mem_scanLines] at hmem
      omega
    rw [hlines, leaks_of_not_mem (.inl hlow), Ne, lineAfter_of_lt hlow]
    simp only [selectsIn_scanLines]
    rw [Tools.LeavesLine]
    grind

/-! ### What a call does to the mutex -/

variable {m m' : RecMutex Task}

omit [DecidableEq Task] in
theorem Tools.lock_eq (hm : s.mutex = some m) : s.lock = m := by rw [lock, hm, Option.getD_some]

theorem exists_take_of_lock {α : Type} {f : Unit → I2cM Task α} {r : α × Tools Task} (h : (pkI2cLock t >>= f) s = some r) :
    ∃ m m', s.mutex = some m ∧ m.take t = some m' := by
  rw [bind_apply, Option.bind_eq_some_iff] at h
  obtain ⟨_, hlock, -⟩ := h
  obtain ⟨m, m', hm, htake, -⟩ := pkI2cLock_eq_some hlock
  exact ⟨m, m', hm, htake⟩

theorem exists_take_of_switch {line : Int} {r : Unit × Tools Task} (hvalid : s.Valid line) (h : pkI2cSwitch t line s = some r) :
    ∃ m m', s.mutex = some m ∧ m.take t = some m' := by
  rw [pkI2cSwitch, bind_apply, get_apply, Option.bind_some] at h
  dsimp only at h
  rw [if_neg hvalid.1, if_neg hvalid.2] at h
  exact exists_take_of_lock h

private theorem take_ne (h : m.take t = some m') : m' ≠ m := by
  rintro rfl
  have hholds := RecMutex.holds_take h t
  rw [if_pos rfl] at hholds
  omega

/-- What the rest of a run needs to know of a call: where there is a mutex, there is a current line. -/
def Tools.Begun (s : Tools Task) : Prop := s.mutex ≠ none → s.line ≠ none

omit [DecidableEq Task] in
theorem Tools.Begun.select (h : s.Begun) (line : Int) : (s.select line).Begun := by
  intro hm
  have hline := h hm
  rw [Tools.select]
  dsimp only
  split
  · rwa [Ne, Option.map_eq_none_iff]
  · exact hline

theorem pkI2cBegin_spec (t : Task) (s : Tools Task) (sw : Switcher) :
    ∃ s', pkI2cBegin t sw s = some ((), s') ∧ s'.mutex = some .free ∧ s'.Begun := by
  rw [pkI2cBegin, bind_apply]
  by_cases hsw : sw = .none
  · rw [if_neg (not_not.2 hsw)]
    exact ⟨_, rfl, rfl, fun _ => Option.some_ne_none _⟩
  · have hvalid : ({ s with switcher := sw, mutex := some .free, line := some (-1) } : Tools Task).Valid 0 :=
      ⟨hsw, by decide⟩
    have hswitch := pkI2cSwitch_select (t := t) hvalid (Int.neg_ne_zero.2 Int.one_ne_zero) rfl rfl
    rw [if_pos hsw]
    exact ⟨_, hswitch, rfl, Tools.Begun.select (fun _ => Option.some_ne_none _) 0⟩

theorem pkI2cSwitch_spec (hbegun : s.Begun) (hm : s.mutex = some m) (htake : m.take t = some m') (line : Int) :
    ∃ s', pkI2cSwitch t line s = some ((), s') ∧ (s'.lock = s.lock ↔ s.Balanced (.switch line)) ∧ s'.Begun := by
  by_cases hvalid : s.Valid line
  · by_cases hhits : s.Hits line
    · refine ⟨_, pkI2cSwitch_hits hvalid hhits hm htake, ?_, fun _ => hbegun (by rw [hm]; exact Option.some_ne_none m)⟩
      rw [Tools.lock_eq hm]
      exact iff_of_false (take_ne htake) (not_not.2 ⟨hvalid, hhits⟩)
    · refine ⟨_, pkI2cSwitch_select hvalid hhits hm htake, ?_, hbegun.select line⟩
      exact iff_of_true rfl fun h => hhits h.2
  · refine ⟨s, pkI2cSwitch_invalid hvalid, ?_, hbegun⟩
    exact iff_of_true rfl fun h => hvalid h.1

/-- The end of the scan of a multiplexer gives the mutex back once, whatever the switches before have left of it. -/
theorem switchBack_spec (htake : m.take t = some m') {k : Nat} {back current : Int}
    (hm : s.mutex = some (.held t (m.holds t + k))) (hline : s.line = some current) :
    ∃ s', (do pkI2cSwitch t back; pkI2cUnlock t : I2cM Task Unit) s = some ((), s') ∧
      (s'.lock = m ↔ k = 0 ∧ (s.Valid back → current ≠ back)) ∧ s'.Begun := by
  have hbegun : s.Begun := fun _ => by rw [hline]; exact Option.some_ne_none current
  have hmutex : s.mutex ≠ none := by rw [hm]; exact Option.some_ne_none _
  have hget : s.line.getD (-1) = current := by rw [hline, Option.getD_some]
  obtain ⟨m₁, hgive, hm₁⟩ := RecMutex.exists_give_held htake k
  rw [bind_apply]
  by_cases hvalid : s.Valid back
  · rw [imp_iff_right hvalid]
    by_cases hback : current = back
    · obtain ⟨m₂, hgive, hm₂⟩ := RecMutex.exists_give_held htake (k + 1)
      rw [pkI2cSwitch_hits hvalid (hget.trans hback) hm (RecMutex.take_held t _), Option.bind_some, pkI2cUnlock_eq rfl hgive]
      refine ⟨_, rfl, iff_of_false ?_ fun h => h.2 hback, fun _ => hbegun hmutex⟩
      exact fun heq => Nat.succ_ne_zero k (hm₂.1 heq)
    · rw [pkI2cSwitch_select hvalid (fun h => hback (hget.symm.trans h)) hm (RecMutex.take_held t _), Option.bind_some]
      dsimp only
      rw [pkI2cUnlock_eq (show (s.select back).mutex = _ from hm) hgive]
      refine ⟨_, rfl, ?_, fun _ => hbegun.select back hmutex⟩
      rw [and_iff_left hback]
      exact hm₁
  · rw [pkI2cSwitch_invalid hvalid, Option.bind_some, pkI2cUnlock_eq hm hgive]
    refine ⟨_, rfl, ?_, fun _ => hbegun hmutex⟩
    rw [and_iff_left fun h => absurd h hvalid]
    exact hm₁

omit [DecidableEq Task] in
theorem balanced_scan {current : Int} (hsw : s.switcher ≠ .none) (hline : s.line = some current) : s.Balanced .scan ↔
    leaks s.wire scanLines current s.bus.length = 0 ∧
      (s.Valid current → lineAfter s.wire scanLines current s.bus.length ≠ current) := by
  have hget : s.line.getD (-1) = current := by rw [hline, Option.getD_some]
  rw [Tools.Balanced, hget]
  by_cases hvalid : s.Valid current
  · rw [imp_iff_right hvalid, imp_iff_right hvalid, leavesLine_iff hvalid]
  · have hout : current < 3 ∨ 3 + (5 : Nat) ≤ current := by
      rw [Tools.Valid, maxChannel] at hvalid
      have hrange := not_not.1 fun h => hvalid ⟨hsw, h⟩
      omega
    exact iff_of_true (fun h => absurd h hvalid) ⟨leaks_of_not_mem hout, fun h => absurd h hvalid⟩

theorem pkI2cScan_spec (hbegun : s.Begun) (hm : s.mutex = some m) (htake : m.take t = some m') :
    ∃ s', pkI2cScan t s = some ((), s') ∧ (s'.lock = s.lock ↔ s.Balanced .scan) ∧ s'.Begun := by
  have hline : s.line ≠ none := hbegun (by rw [hm]; exact Option.some_ne_none m)
  rw [pkI2cScan, bind_apply, pkI2cLock_eq hm htake, Option.bind_some, bind_apply, get_apply, Option.bind_some, Tools.lock_eq hm]
  dsimp only
  by_cases hsw : s.switcher = .none
  · obtain ⟨m'', htake'⟩ := RecMutex.exists_take_of_take htake
    obtain ⟨n, hscan⟩ := pkI2cScanCurrentLine_eq (t := t) (s := { s with mutex := some m' }) rfl htake'
    rw [if_pos hsw, bind_apply, hscan, Option.bind_some, pkI2cUnlock_eq rfl (RecMutex.give_of_take htake)]
    exact ⟨_, rfl, iff_of_true rfl fun hvalid => absurd hsw hvalid.1, fun _ => hline⟩
  · obtain ⟨current, hcurrent⟩ := Option.ne_none_iff_exists'.1 hline
    have hget : s.line.getD (-1) = current := by rw [hcurrent, Option.getD_some]
    have hlines : ∀ line ∈ scanLines, 0 ≤ line ∧ line < maxChannel := by decide
    obtain rfl := RecMutex.eq_held_of_take htake
    obtain ⟨bus, reports, hloop⟩ := scanLinesLoop_eq (t := t) (s := { s with mutex := some (.held t (m.holds t)) })
      hlines hsw rfl hcurrent
    rw [if_neg hsw, bind_apply, pkI2cGetLine, Option.bind_some]
    dsimp only
    rw [bind_apply, hget, hloop, Option.bind_some, balanced_scan hsw hcurrent]
    exact switchBack_spec htake rfl rfl

/-! ### Runs -/

/-- A call returns where no other task holds the mutex. -/
theorem Call.exists_run (hbegun : s.Begun) (hm : s.mutex = some m) (htake : m.take t = some m') (c : Call) :
    ∃ s', c.run t s = some ((), s') := by
  cases c with
  | begin sw =>
    obtain ⟨s', hrun, -, -⟩ := pkI2cBegin_spec t s sw
    exact ⟨s', hrun⟩
  | switch line =>
    obtain ⟨s', hrun, -, -⟩ := pkI2cSwitch_spec hbegun hm htake line
    exact ⟨s', hrun⟩
  | scan =>
    obtain ⟨s', hrun, -, -⟩ := pkI2cScan_spec hbegun hm htake
    exact ⟨s', hrun⟩

theorem Call.run_spec (hbegun : s.Begun) {c : Call} {s' : Tools Task} (h : c.run t s = some ((), s')) :
    (s'.lock = s.lock ↔ s.Balanced c) ∧ s'.Begun := by
  cases c with
  | begin sw =>
    obtain ⟨s₁, hrun, hm, hbegun₁⟩ := pkI2cBegin_spec t s sw
    obtain rfl : s₁ = s' := congrArg Prod.snd (Option.some.inj (hrun.symm.trans h))
    refine ⟨?_, hbegun₁⟩
    rw [Tools.lock_eq hm]
    exact eq_comm
  | switch line =>
    by_cases hvalid : s.Valid line
    · obtain ⟨m, m', hm, htake⟩ := exists_take_of_switch hvalid h
      obtain ⟨s₁, hrun, hspec⟩ := pkI2cSwitch_spec hbegun hm htake line
      obtain rfl : s₁ = s' := congrArg Prod.snd (Option.some.inj (hrun.symm.trans h))
      exact hspec
    · obtain rfl : s = s' := congrArg Prod.snd (Option.some.inj ((pkI2cSwitch_invalid hvalid).symm.trans h))
      exact ⟨iff_of_true rfl fun h => hvalid h.1, hbegun⟩
  | scan =>
    obtain ⟨m, m', hm, htake⟩ := exists_take_of_lock h
    obtain ⟨s₁, hrun, hspec⟩ := pkI2cScan_spec hbegun hm htake
    obtain rfl : s₁ = s' := congrArg Prod.snd (Option.some.inj (hrun.symm.trans h))
    exact hspec

/-- The holds of the mutex are those that the tasks have taken themselves. -/
structure World.Inv (s : World Task) : Prop where
  held : ∀ t, s.tools.lock.holds t = s.own t
  begun : s.tools.Begun

theorem World.Init.inv {s : World Task} (h : s.Init) : s.Inv := by
  obtain ⟨-, hm, -, hown⟩ := h
  refine ⟨?_, fun hne => absurd hm hne⟩
  intro t
  rw [Tools.lock, hm, hown]
  rfl

theorem Tools.Begun.step {s s' : World Task} {l : Label Task} (h : s.tools.Begun) (hstep : s.step l = some s') :
    s'.tools.Begun := by
  cases l with
  | lock t =>
    rw [World.step, Option.map_eq_some_iff] at hstep
    obtain ⟨r, hlock, rfl⟩ := hstep
    obtain ⟨m, m', hm, -, rfl⟩ := pkI2cLock_eq_some hlock
    exact fun _ => h (by rw [hm]; exact Option.some_ne_none m)
  | unlock t =>
    rw [World.step, Option.ite_none_left_eq_some, Option.map_eq_some_iff] at hstep
    obtain ⟨-, r, hunlock, rfl⟩ := hstep
    obtain ⟨m, m', hm, -, rfl⟩ := pkI2cUnlock_eq_some hunlock
    exact fun _ => h (by rw [hm]; exact Option.some_ne_none m)
  | call t c =>
    rw [World.step, Option.map_eq_some_iff] at hstep
    obtain ⟨⟨⟨⟩, s₁⟩, hrun, rfl⟩ := hstep
    exact (Call.run_spec h hrun).2

theorem World.Inv.step {s s' : World Task} {l : Label Task} (h : s.Inv) (hl : Balances s l) (hstep : s.step l = some s') :
    s'.Inv := by
  refine ⟨?_, h.begun.step hstep⟩
  cases l with
  | lock t =>
    rw [World.step, Option.map_eq_some_iff] at hstep
    obtain ⟨r, hlock, rfl⟩ := hstep
    obtain ⟨m, m', hm, htake, rfl⟩ := pkI2cLock_eq_some hlock
    intro u
    have hheld := h.held u
    rw [Tools.lock_eq hm] at hheld
    rw [Tools.lock_eq rfl, RecMutex.holds_take htake, hheld]
    dsimp only
    rw [Function.update_apply]
    split
    next hu => rw [hu]
    next hu => rfl
  | unlock t =>
    rw [World.step, Option.ite_none_left_eq_some, Option.map_eq_some_iff] at hstep
    obtain ⟨hown, r, hunlock, rfl⟩ := hstep
    obtain ⟨m, m', hm, hgive, rfl⟩ := pkI2cUnlock_eq_some hunlock
    intro u
    have hheld := h.held u
    rw [Tools.lock_eq hm, ← RecMutex.holds_give hgive] at hheld
    rw [Tools.lock_eq rfl]
    dsimp only
    rw [Function.update_apply]
    split
    next hu =>
      rw [hu, if_pos rfl] at hheld
      rw [hu]
      exact Nat.eq_sub_of_add_eq hheld
    next hu =>
      rw [if_neg hu] at hheld
      exact hheld
  | call t c =>
    rw [World.step, Option.map_eq_some_iff] at hstep
    obtain ⟨⟨⟨⟩, s₁⟩, hrun, rfl⟩ := hstep
    obtain ⟨hlock, -⟩ := Call.run_spec h.begun hrun
    intro u
    rw [← h.held u]
    exact congrArg (RecMutex.holds u) (hlock.2 hl)

/-- **In every run of balanced calls, the mutex is held as often as the tasks have locked it themselves, a call returns where no other task has locked it, and it leaves the mutex as it was exactly where it is balanced.** -/
theorem lockBalance_iff {s : World Task} (hs : (i2cTools Task).ReachableUnder Balances s) :
    (∀ t, s.tools.lock.holds t = s.own t) ∧
    (∀ t c, s.tools.mutex ≠ none → (∀ u, u ≠ t → s.own u = 0) → ∃ s', Call.run t c s.tools = some ((), s')) ∧
    ∀ t c s', Call.run t c s.tools = some ((), s') → (s'.lock = s.tools.lock ↔ s.tools.Balanced c) := by
  have hinv : s.Inv := hs.invariant (fun _ => World.Init.inv) fun _ _ _ h hl hstep => h.step hl hstep
  refine ⟨hinv.held, ?_, fun t c s' hrun => (Call.run_spec hinv.begun hrun).1⟩
  intro t c hmutex hown
  obtain ⟨m, hm⟩ := Option.ne_none_iff_exists'.1 hmutex
  have hfree : ∀ u, u ≠ t → m.holds u = 0 := by
    intro u hu
    rw [← hown u hu, ← hinv.held u, Tools.lock_eq hm]
  obtain ⟨m', htake⟩ := RecMutex.exists_take hfree
  exact Call.exists_run hinv.begun hm htake c

def offWorld : World Bool := ⟨⟨.none, none, none, fun _ => 0, [], []⟩, fun _ => 0⟩

theorem offWorld_init : offWorld.Init := ⟨rfl, rfl, rfl, rfl⟩

def pca9547Begun : World Bool := (System.runSteps World.step offWorld [.call true (.begin .pca9547)]).getD offWorld

theorem pca9547Begun_reachable : (i2cTools Bool).ReachableUnder Balances pca9547Begun :=
  System.reachableUnder_runSteps [.call true (.begin .pca9547)] (.init offWorld_init) rfl

/-- Line 0 is current then, and line 3 is not. -/
def line3Switched : Tools Bool := ((Call.run false (.switch 3) pca9547Begun.tools).map Prod.snd).getD pca9547Begun.tools

theorem lockBalance_switch : line3Switched.lock = pca9547Begun.tools.lock :=
  ((lockBalance_iff pca9547Begun_reachable).2.2 false (.switch 3) line3Switched rfl).2 (by decide)

/-- The switch to line 0, which is current, keeps the mutex. -/
theorem not_lockBalance_switch : ¬ ∀ s : World Bool, (i2cTools Bool).Reachable s → ∀ t c s',
    Call.run t c s.tools = some ((), s') → s'.lock = s.tools.lock := by
  intro h
  have hreach : (i2cTools Bool).Reachable pca9547Begun := pca9547Begun_reachable.mono fun _ _ _ => trivial
  have hlock := h pca9547Begun hreach false (.switch 0) _ rfl
  revert hlock
  decide

end Vedruino.I2c
