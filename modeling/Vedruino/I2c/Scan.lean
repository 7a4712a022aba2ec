import Vedruino.I2c.Cache

/-!
# The scan of the lines

`pk_i2c_scan` relies on switches that may fail. What it finds is compared with the devices that answer on each line, and the line it ends on with the one it was called on.
-/

namespace Vedruino.I2c

/-- The addresses that answer while the multiplexer selects a line, or none. -/
abbrev Population := Option Int → Nat → Bool

/-- The probes are answered by the devices on the line that is selected at that time. -/
def Population.Answers (pop : Population) (sw : Switcher) : UInt8 → List Transmission → Prop
  | _, [] => True
  | r, tr :: sent => (tr.data = [] → (tr.res = 0 ↔ pop (selects sw r) tr.addr = true)) ∧ pop.Answers sw (hubStep r tr) sent

instance Population.decidableAnswers (pop : Population) (sw : Switcher) :
    ∀ (r : UInt8) (sent : List Transmission), Decidable (pop.Answers sw r sent)
  | _, [] => .isTrue trivial
  | r, tr :: sent =>
    have := Population.decidableAnswers pop sw (hubStep r tr) sent
    inferInstanceAs (Decidable (_ ∧ _))

/-- The devices found, each with the line that was reported before it. -/
def attributed : Option Int → List Report → List (Int × Nat)
  | _, [] => []
  | _, .switched line :: rs => attributed (some line) rs
  | line, .found address :: rs => (line.map fun l => (l, address)).toList ++ attributed line rs
  | line, .failed _ _ :: rs => attributed line rs
  | line, .count _ :: rs => attributed line rs

variable {Task : Type}

/-- A device reported on a line answers there, and the line selected is the one from before. -/
def ScanCorrect (pop : Population) (r₀ : UInt8) (s s' : Tools Task) : Prop :=
  (∀ found ∈ attributed none (s'.reports.drop s.reports.length), pop (some found.1) found.2 = true) ∧
    s'.selected r₀ = s.selected r₀

/-- The line selected after switches to `lines`, when `current` is remembered and `selected` is selected before. -/
def selectedAfter (wire : Nat → UInt8) : List Int → Int → Option Int → Nat → Option Int
  | [], _, selected, _ => selected
  | line :: lines, current, selected, n =>
    if current = line then selectedAfter wire lines current selected (n + scanAddresses.length)
    else
      selectedAfter wire lines (if wire n = 0 then line else current) (if wire n = 0 then some line else selected)
        (n + 1 + scanAddresses.length)

/-- What answers on the line that is selected when a line is scanned answers on that line too. -/
def Tools.Faithful (pop : Population) (r₀ : UInt8) (s : Tools Task) : Prop :=
  ∀ lines line, lines ++ [line] <+: scanLines → ∀ address ∈ scanAddresses,
    pop (selectedAfter s.wire (lines ++ [line]) (s.line.getD (-1)) (s.selected r₀) s.bus.length) address = true →
      pop (some line) address = true

/-- The scan ends on the line it was called on, or it remembers that line and the transmission that selects it again succeeds. -/
def Tools.Restores (r₀ : UInt8) (s : Tools Task) : Prop :=
  let current := s.line.getD (-1)
  selectedAfter s.wire scanLines current (s.selected r₀) s.bus.length = s.selected r₀ ∨
    current ≠ -1 ∧
      s.wire (s.bus.length + (scanLines.length * (scanAddresses.length + 1) - leaks s.wire scanLines current s.bus.length)) = 0

/-! ### What a scan does -/

/-- A round of the scan: the transmission that selects the line, if it is not current, and the probes. -/
structure Round where
  line : Int
  write : List Transmission
  probes : List Transmission

def Round.sent (r : Round) : List Transmission := r.write ++ r.probes

def answering (sent : List Transmission) : List Nat := (sent.filter fun tr => tr.res = 0).map Transmission.addr

def Round.found (r : Round) : List (Int × Nat) := (answering r.probes).map fun address => (r.line, address)

def rounds (sw : Switcher) (wire : Nat → UInt8) : List Int → Int → Nat → List Round
  | [], _, _ => []
  | line :: lines, current, n =>
    if current = line then
      ⟨line, [], probes wire n scanAddresses⟩ :: rounds sw wire lines current (n + scanAddresses.length)
    else
      ⟨line, [⟨i2cHubAddr, hubData sw line, wire n⟩], probes wire (n + 1) scanAddresses⟩ ::
        rounds sw wire lines (if wire n = 0 then line else current) (n + 1 + scanAddresses.length)

theorem attributed_append_probes (line : Option Int) (sent : List Transmission) (rs : List Report) :
    attributed line (sent.flatMap probeReports ++ rs) =
      (answering sent).flatMap (fun address => (line.map fun l => (l, address)).toList) ++ attributed line rs := by
  induction sent with
  | nil => rfl
  | cons tr sent ih =>
    rw [List.flatMap_cons, List.append_assoc, answering]
    by_cases hfound : tr.res = 0
    · rw [probeReports, if_pos hfound, List.filter_cons_of_pos (by simpa using hfound), List.map_cons, List.flatMap_cons,
        List.append_assoc]
      exact congrArg _ ih
    · rw [probeReports, if_neg hfound, List.filter_cons_of_neg (by simpa using hfound)]
      split
      · exact ih
      · exact ih

private theorem attributed_scanned (line : Int) (sent : List Transmission) (n : Nat) (rs : List Report) (before : Option Int) :
    attributed before (.switched line :: (sent.flatMap probeReports ++ [.count n]) ++ rs) =
      (answering sent).map (fun address => (line, address)) ++ attributed (some line) rs := by
  rw [List.cons_append, attributed, List.append_assoc, attributed_append_probes]
  simp [attributed, ← List.map_eq_flatMap]

/-! ### Which devices are found -/

theorem hubAfter_probes (r : UInt8) (wire : Nat → UInt8) (n : Nat) (addresses : List Nat) :
    hubAfter r (probes wire n addresses) = r := by
  induction addresses generalizing n with
  | nil => rfl
  | cons address addresses ih =>
    rw [probes, hubAfter, List.foldl_cons, hubStep_probe rfl]
    exact ih (n + 1)

/-- A write to the multiplexer selects its line where it succeeds. -/
theorem selects_write {sw : Switcher} (hnone : sw ≠ .none) (hother : sw ≠ .other) {line : Int} (hline : line ∈ hubLines)
    (r res : UInt8) :
    selects sw (hubStep r ⟨i2cHubAddr, hubData sw line, res⟩) = if res = 0 then some line else selects sw r := by
  obtain ⟨r', hdata, hsel⟩ := selects_hubData hnone hother hline
  by_cases hres : res = 0
  · rw [if_pos hres, hubStep, if_pos ⟨rfl, hres⟩, hdata]
    exact hsel
  · rw [if_neg hres, hubStep, if_neg fun h => hres h.2]

theorem Population.answers_append (pop : Population) (sw : Switcher) (r : UInt8) (sent sent' : List Transmission) :
    pop.Answers sw r (sent ++ sent') ↔ pop.Answers sw r sent ∧ pop.Answers sw (hubAfter r sent) sent' := by
  induction sent generalizing r with
  | nil => exact (and_iff_right trivial).symm
  | cons tr sent ih => rw [List.cons_append, Answers, Answers, ih, and_assoc, hubAfter, hubAfter, List.foldl_cons]

private theorem answering_probes {pop : Population} {sw : Switcher} {r : UInt8} {wire : Nat → UInt8} {n : Nat} {addresses : List Nat}
    (h : pop.Answers sw r (probes wire n addresses)) :
    answering (probes wire n addresses) = addresses.filter (pop (selects sw r)) := by
  induction addresses generalizing n with
  | nil => rfl
  | cons address addresses ih =>
    rw [probes, Population.Answers, hubStep_probe rfl] at h
    obtain ⟨hfirst, hrest⟩ := h
    have hfound := hfirst rfl
    have hnext := ih hrest
    rw [answering] at hnext
    rw [probes, answering, List.filter_cons, List.filter_cons]
    by_cases hres : wire n = 0
    · simp [hres, hfound.1 hres, hnext]
    · simp [hres, mt hfound.2 hres, hnext]

private theorem exists_prefix_cons {α : Type} {a x : α} {l : List α} {Q : List α → Prop} :
    (∃ before, before ++ [x] <+: a :: l ∧ Q (before ++ [x])) ↔
      x = a ∧ Q [a] ∨ ∃ before, before ++ [x] <+: l ∧ Q (a :: (before ++ [x])) := by
  constructor
  · rintro ⟨_ | ⟨b, before⟩, hprefix, hq⟩
    · rw [List.nil_append, List.cons_prefix_cons] at hprefix
      obtain ⟨rfl, -⟩ := hprefix
      exact .inl ⟨rfl, hq⟩
    · rw [List.cons_append, List.cons_prefix_cons] at hprefix
      obtain ⟨rfl, hprefix⟩ := hprefix
      exact .inr ⟨before, hprefix, hq⟩
  · rintro (⟨rfl, hq⟩ | ⟨before, hprefix, hq⟩)
    · exact ⟨[], by simp, hq⟩
    · refine ⟨a :: before, ?_, hq⟩
      rw [List.cons_append, List.cons_prefix_cons]
      exact ⟨rfl, hprefix⟩

section

variable {pop : Population} {sw : Switcher} {wire : Nat → UInt8} {lines : List Int} {current : Int} {n : Nat} {r : UInt8}

private theorem selects_rounds (hnone : sw ≠ .none) (hother : sw ≠ .other) (hlines : ∀ line ∈ lines, line ∈ hubLines) :
    selects sw (hubAfter r ((rounds sw wire lines current n).flatMap Round.sent)) =
      selectedAfter wire lines current (selects sw r) n := by
  induction lines generalizing current n r with
  | nil => rfl
  | cons line lines ih =>
    obtain ⟨hline, hrest⟩ := List.forall_mem_cons.1 hlines
    rw [rounds, selectedAfter]
    split
    · rw [List.flatMap_cons, Round.sent, hubAfter_append, hubAfter_append, hubAfter_probes, ih hrest]
      rfl
    · rw [List.flatMap_cons, Round.sent, hubAfter_append, hubAfter_append, hubAfter_probes, ih hrest,
        ← selects_write hnone hother hline]
      rfl

private theorem mem_found_cons {write : List Transmission} {line : Int} {done : List Round} {found : Int × Nat}
    (h : pop.Answers sw r (probes wire n scanAddresses)) :
    found ∈ (⟨line, write, probes wire n scanAddresses⟩ :: done).flatMap Round.found ↔
      (found.1 = line ∧ found.2 ∈ scanAddresses ∧ pop (selects sw r) found.2 = true) ∨ found ∈ done.flatMap Round.found := by
  rw [List.flatMap_cons, List.mem_append, Round.found, answering_probes h, List.mem_map]
  apply or_congr_left
  constructor
  · rintro ⟨address, haddress, rfl⟩
    exact ⟨rfl, List.mem_filter.1 haddress⟩
  · rintro ⟨hline, haddress⟩
    exact ⟨found.2, List.mem_filter.2 haddress, Prod.ext hline.symm rfl⟩

/-- The devices found are those that answer on the line selected when a line is scanned. -/
theorem mem_found_rounds (hnone : sw ≠ .none) (hother : sw ≠ .other) (hlines : ∀ line ∈ lines, line ∈ hubLines)
    (h : pop.Answers sw r ((rounds sw wire lines current n).flatMap Round.sent)) {found : Int × Nat} :
    found ∈ (rounds sw wire lines current n).flatMap Round.found ↔
      ∃ before, before ++ [found.1] <+: lines ∧ found.2 ∈ scanAddresses ∧
        pop (selectedAfter wire (before ++ [found.1]) current (selects sw r) n) found.2 = true := by
  induction lines generalizing current n r with
  | nil => simp [rounds]
  | cons line lines ih =>
    obtain ⟨hline, hrest⟩ := List.forall_mem_cons.1 hlines
    rw [exists_prefix_cons (Q := fun before => found.2 ∈ scanAddresses ∧
      pop (selectedAfter wire before current (selects sw r) n) found.2 = true)]
    rw [rounds] at h ⊢
    split at h
    next hcurrent =>
      rw [List.flatMap_cons, Population.answers_append, Round.sent, List.nil_append, hubAfter_probes] at h
      rw [if_pos hcurrent, mem_found_cons h.1, ih hrest h.2]
      simp only [selectedAfter, if_pos hcurrent]
    next hcurrent =>
      have hwrite := selects_write hnone hother hline r (wire n)
      rw [List.flatMap_cons, Population.answers_append, Round.sent, Population.answers_append, hubAfter_append,
        hubAfter_probes] at h
      rw [if_neg hcurrent, mem_found_cons h.1.2, ih hrest h.2]
      simp only [selectedAfter, if_neg hcurrent, ← hwrite]
      rfl

end

/-- What has been sent and reported from one state to another are the rounds in between. -/
structure Scanned (s s' : Tools Task) (done : List Round) : Prop where
  bus : s'.bus = s.bus ++ done.flatMap Round.sent
  reports : ∃ rs, s'.reports = s.reports ++ rs ∧ ∀ before, attributed before rs = done.flatMap Round.found

variable {t : Task} {s s₁ s' : Tools Task} {current line : Int}

theorem Scanned.refl (s : Tools Task) : Scanned s s [] where
  bus := (List.append_nil _).symm
  reports := ⟨[], (List.append_nil _).symm, fun _ => rfl⟩

theorem Scanned.cons (s₁ : Tools Task) {write : List Transmission} {n : Nat} {done : List Round} (hbus : s₁.bus = s.bus ++ write)
    (hreports : s₁.reports = s.reports) (h : Scanned (s₁.scanned line n) s' done) :
    Scanned s s' (⟨line, write, probes s₁.wire s₁.bus.length scanAddresses⟩ :: done) := by
  obtain ⟨hbus', rs, hreports', hfound⟩ := h
  constructor
  · rw [hbus', Tools.scanned]
    simp [hbus, Round.sent]
  · refine ⟨.switched line :: ((probes s₁.wire s₁.bus.length scanAddresses).flatMap probeReports ++ [.count n]) ++ rs, ?_, ?_⟩
    · rw [hreports', Tools.scanned, hreports, List.append_assoc]
    · intro before
      rw [attributed_scanned, hfound, List.flatMap_cons, Round.found]

variable [DecidableEq Task]

private theorem scanLinesLoop_cases {lines : List Int} (h : scanLinesLoop t (line :: lines) s = some ((), s')) :
    ∃ s₁ n, pkI2cSwitch t line s = some ((), s₁) ∧ scanLinesLoop t lines (s₁.scanned line n) = some ((), s') := by
  have hround := h
  rw [scanLinesLoop, bind_apply, Option.bind_eq_some_iff] at hround
  obtain ⟨⟨⟨⟩, s₁⟩, hswitch, hrest⟩ := hround
  rw [bind_apply, report, Option.bind_some, bind_apply, Option.bind_eq_some_iff] at hrest
  obtain ⟨⟨⟨⟩, s₂⟩, hscan, -⟩ := hrest
  obtain ⟨m, m', hm, htake⟩ := exists_take_of_lock hscan
  obtain ⟨n, heq⟩ := scanLinesLoop_cons lines hswitch hm htake
  rw [heq] at h
  exact ⟨s₁, n, hswitch, h⟩

private theorem scanLinesLoop_scanned {lines : List Int} (hlines : ∀ l ∈ lines, 0 ≤ l ∧ l < maxChannel) (hsw : s.switcher ≠ .none)
    (hline : s.line = some current) (h : scanLinesLoop t lines s = some ((), s')) :
    Scanned s s' (rounds s.switcher s.wire lines current s.bus.length) := by
  induction lines generalizing s current with
  | nil =>
    cases h
    exact .refl _
  | cons line lines ih =>
    obtain ⟨hlow, hhigh⟩ := hlines line List.mem_cons_self
    have hrange : ∀ l ∈ lines, 0 ≤ l ∧ l < maxChannel := fun l hl => hlines l (List.mem_cons_of_mem _ hl)
    obtain ⟨s₁, n, hswitch, hrest⟩ := scanLinesLoop_cases h
    have hvalid : s.Valid line := ⟨hsw, by omega⟩
    have hget : s.line.getD (-1) = current := by rw [hline, Option.getD_some]
    rcases pkI2cSwitch_cases hswitch with ⟨hinvalid, -⟩ | ⟨-, hhits, m, rfl⟩ | ⟨-, hhits, rfl⟩
    · exact absurd hvalid hinvalid
    · have hcurrent : current = line := hget.symm.trans hhits
      have hscanned := ih (s := Tools.scanned { s with mutex := some m } line n) hrange hsw hline hrest
      rw [Tools.length_scanned] at hscanned
      rw [rounds, if_pos hcurrent]
      exact .cons { s with mutex := some m } (List.append_nil _).symm rfl hscanned
    · have hcurrent : current ≠ line := fun heq => hhits (hget.trans heq)
      have hlen : (s.select line).bus.length = s.bus.length + 1 := List.length_append
      have hscanned := ih (s := (s.select line).scanned line n) hrange hsw (Tools.select_line hline) hrest
      rw [Tools.length_scanned, hlen] at hscanned
      rw [rounds, if_neg hcurrent]
      have hround := Scanned.cons (s.select line) (s := s) rfl rfl hscanned
      rw [hlen] at hround
      exact hround

theorem begun_of_reachable {w : World Task} (hw : (i2cTools Task).ReachableUnder Known w) : w.tools.Begun := by
  apply hw.invariant
  · intro w hinit hmutex
    exact absurd hinit.2.1 hmutex
  · intro w l w' h _ hstep
    exact h.step hstep

omit [DecidableEq Task] in
theorem length_rounds (sw : Switcher) (wire : Nat → UInt8) (lines : List Int) (current : Int) (n : Nat) :
    ((rounds sw wire lines current n).flatMap Round.sent).length + leaks wire lines current n =
      lines.length * (scanAddresses.length + 1) := by
  induction lines generalizing current n with
  | nil => rfl
  | cons line lines ih =>
    rw [rounds, leaks, List.length_cons, Nat.succ_mul]
    split
    · have hrest := ih current (n + scanAddresses.length)
      rw [List.flatMap_cons, List.length_append, Round.sent, List.nil_append, length_probes]
      omega
    · have hrest := ih (if wire n = 0 then line else current) (n + 1 + scanAddresses.length)
      rw [List.flatMap_cons, List.length_append, Round.sent, List.length_append, length_probes, List.length_singleton]
      omega

/-- A scan of a multiplexer is the loop over the lines and the switch back. -/
theorem pkI2cScan_cases (hsw : s.switcher ≠ .none) (hline : s.line = some current) (h : pkI2cScan t s = some ((), s')) :
    ∃ s₁ s₂ m, Scanned s s₁ (rounds s.switcher s.wire scanLines current s.bus.length) ∧
      s₁.line = some (lineAfter s.wire scanLines current s.bus.length) ∧ s₁.switcher = s.switcher ∧ s₁.wire = s.wire ∧
        (∀ r₀, s.Sound r₀ → s₁.Sound r₀) ∧ pkI2cSwitch t current s₁ = some ((), s₂) ∧ s' = { s₂ with mutex := m } := by
  obtain ⟨m, m', hm, htake⟩ := exists_take_of_lock h
  have hget : s.line.getD (-1) = current := by rw [hline, Option.getD_some]
  have hlines : ∀ line ∈ scanLines, 0 ≤ line ∧ line < maxChannel := by decide
  obtain rfl := RecMutex.eq_held_of_take htake
  let locked : Tools Task := { s with mutex := some (.held t (m.holds t)) }
  obtain ⟨bus, reports, hloop⟩ := scanLinesLoop_eq (t := t) (s := locked) hlines hsw rfl hline
  rw [pkI2cScan, bind_apply, pkI2cLock_eq hm htake, Option.bind_some, bind_apply, get_apply, Option.bind_some] at h
  dsimp only at h
  rw [if_neg hsw, bind_apply, pkI2cGetLine, Option.bind_some] at h
  dsimp only at h
  rw [bind_apply, hget, hloop, Option.bind_some, bind_apply, Option.bind_eq_some_iff] at h
  obtain ⟨⟨⟨⟩, s₂⟩, hback, hunlock⟩ := h
  obtain ⟨_, m₂, _, _, heq⟩ := pkI2cUnlock_eq_some hunlock
  obtain ⟨hbus, hreports⟩ := scanLinesLoop_scanned (s := locked) hlines hsw hline hloop
  refine ⟨_, s₂, some m₂, ⟨hbus, hreports⟩, rfl, rfl, rfl, ?_, hback, congrArg Prod.snd heq⟩
  intro r₀ hs
  exact scanLinesLoop_keeps t scanLines (s := locked) ⟨hs.known, hs.coherent⟩ hloop

omit [DecidableEq Task] in
theorem Scanned.selected_eq {wire : Nat → UInt8} {n : Nat} (hnone : s.switcher ≠ .none) (hother : s.switcher ≠ .other)
    (h : Scanned s s₁ (rounds s.switcher wire scanLines current n)) (hsw : s₁.switcher = s.switcher) (r₀ : UInt8) :
    s₁.selected r₀ = selectedAfter wire scanLines current (s.selected r₀) n := by
  rw [Tools.selected, Tools.hub, h.bus, hubAfter_append, hsw, selects_rounds hnone hother (by decide)]
  rfl

variable {pop : Population} {r₀ : UInt8}

omit [DecidableEq Task] in
theorem Scanned.faithful_iff (hnone : s.switcher ≠ .none) (hother : s.switcher ≠ .other) (hline : s.line = some current)
    (h : Scanned s s₁ (rounds s.switcher s.wire scanLines current s.bus.length))
    (hpop : pop.Answers s.switcher (s.hub r₀) ((rounds s.switcher s.wire scanLines current s.bus.length).flatMap Round.sent)) :
    (∀ found ∈ attributed none (s₁.reports.drop s.reports.length), pop (some found.1) found.2 = true) ↔ s.Faithful pop r₀ := by
  obtain ⟨rs, hreports, hfound⟩ := h.reports
  rw [hreports, List.drop_left, hfound, Tools.Faithful, hline, Option.getD_some]
  constructor
  · intro hall lines line hprefix address haddress hanswers
    exact hall (line, address) ((mem_found_rounds hnone hother (by decide) hpop).2 ⟨lines, hprefix, haddress, hanswers⟩)
  · intro hall found hmem
    obtain ⟨lines, hprefix, haddress, hanswers⟩ := (mem_found_rounds hnone hother (by decide) hpop).1 hmem
    exact hall lines found.1 hprefix found.2 haddress hanswers

omit [DecidableEq Task] in
theorem Tools.selected_select (hs : s.Sound r₀) (hvalid : s.Valid line) :
    (s.select line).selected r₀ = if s.wire s.bus.length = 0 then some line else s.selected r₀ := by
  obtain ⟨r, hdata, hsel⟩ := selects_hubData hvalid.1 hs.known (mem_hubLines.2 hvalid.2)
  rw [Tools.selected, Tools.hub_select r₀ s line r hdata]
  split
  · exact hsel
  · rfl

/-- The switch back to the line that the scan was called on. -/
theorem switchBack_restores (hs : s.Sound r₀) (hs₁ : s₁.Sound r₀) (hnone : s.switcher ≠ .none) (hline : s.line = some current)
    (h : Scanned s s₁ (rounds s.switcher s.wire scanLines current s.bus.length)) (hsw : s₁.switcher = s.switcher)
    (hwire : s₁.wire = s.wire) {s₂ : Tools Task} (hback : pkI2cSwitch t current s₁ = some ((), s₂)) :
    s₂.selected r₀ = s.selected r₀ ↔ s.Restores r₀ := by
  have hsel := h.selected_eq hnone hs.known hsw r₀
  have hentry := hs.coherent current hline
  have hvalid_iff : s₁.Valid current ↔ current ≠ -1 := by
    rw [Tools.Valid, hsw, and_iff_right hnone, ← mem_hubLines]
    constructor
    · rintro hmem rfl
      revert hmem
      decide
    · intro hne
      exact mem_hubLines_of_selects (hentry.resolve_left hne)
  rw [Tools.Restores, hline, Option.getD_some, ← hsel]
  rcases pkI2cSwitch_cases hback with ⟨hinvalid, rfl⟩ | ⟨hvalid, hhits, m, rfl⟩ | ⟨hvalid, hhits, rfl⟩
  · have hnever : ¬ current ≠ -1 := mt hvalid_iff.2 hinvalid
    exact ⟨.inl, fun hor => hor.resolve_right fun hback => hnever hback.1⟩
  · have hsame := (hs₁.selected_of_hits hvalid hhits).2.trans (hentry.resolve_left (hvalid_iff.1 hvalid)).symm
    exact iff_of_true hsame (.inl hsame)
  · have hne := hvalid_iff.1 hvalid
    have hlen := length_rounds s.switcher s.wire scanLines current s.bus.length
    have hbus : s₁.bus.length = s.bus.length +
        (scanLines.length * (scanAddresses.length + 1) - leaks s.wire scanLines current s.bus.length) := by
      rw [h.bus, List.length_append]
      omega
    rw [Tools.selected_select hs₁ hvalid, hwire, hbus, hentry.resolve_left hne]
    split
    next hres => exact iff_of_true rfl (.inr ⟨hne, hres⟩)
    next hres => exact ⟨.inl, fun hor => hor.resolve_right fun hback => hres hback.2⟩

omit [DecidableEq Task] in
theorem Population.answers_writes (pop : Population) (sw : Switcher) (r : UInt8) {sent : List Transmission}
    (h : ∀ tr ∈ sent, tr.data ≠ []) : pop.Answers sw r sent := by
  induction sent generalizing r with
  | nil => trivial
  | cons tr sent ih =>
    obtain ⟨hfirst, hrest⟩ := List.forall_mem_cons.1 h
    exact ⟨fun hprobe => absurd hprobe hfirst, ih (hubStep r tr) hrest⟩

theorem pkI2cSwitch_frame (hother : s.switcher ≠ .other) (h : pkI2cSwitch t line s = some ((), s')) :
    (∃ sent, s'.bus = s.bus ++ sent ∧ ∀ tr ∈ sent, tr.data ≠ []) ∧ s'.reports = s.reports := by
  rcases pkI2cSwitch_cases h with ⟨_, rfl⟩ | ⟨_, _, m, rfl⟩ | ⟨hvalid, _, rfl⟩
  · exact ⟨⟨[], (List.append_nil _).symm, fun _ h => absurd h List.not_mem_nil⟩, rfl⟩
  · exact ⟨⟨[], (List.append_nil _).symm, fun _ h => absurd h List.not_mem_nil⟩, rfl⟩
  · refine ⟨⟨_, rfl, ?_⟩, rfl⟩
    obtain ⟨r, hdata, -⟩ := selects_hubData hvalid.1 hother (mem_hubLines.2 hvalid.2)
    rw [List.forall_mem_singleton, hdata]
    exact List.cons_ne_nil r []

/-- Without a multiplexer no device is attributed to a line, and none is selected. -/
theorem pkI2cScan_none (hsw : s.switcher = .none) (h : pkI2cScan t s = some ((), s')) : ScanCorrect pop r₀ s s' := by
  obtain ⟨m, m', hm, htake⟩ := exists_take_of_lock h
  obtain ⟨m'', htake'⟩ := RecMutex.exists_take_of_take htake
  obtain ⟨n, hscan⟩ := pkI2cScanCurrentLine_eq (t := t) (s := { s with mutex := some m' }) rfl htake'
  rw [pkI2cScan, bind_apply, pkI2cLock_eq hm htake, Option.bind_some, bind_apply, get_apply, Option.bind_some] at h
  dsimp only at h
  rw [if_pos hsw, bind_apply, hscan, Option.bind_some] at h
  obtain ⟨_, m₂, _, _, heq⟩ := pkI2cUnlock_eq_some h
  obtain rfl : s' = _ := congrArg Prod.snd heq
  constructor
  · intro found hfound
    rw [List.append_assoc, List.drop_left, attributed_append_probes] at hfound
    simp [attributed] at hfound
  · have hnone : ∀ r, selects Switcher.none r = none := by
      intro r
      simp [selects, hubData]
    rw [Tools.selected, Tools.selected, hsw, hnone, hnone]

/-- Only the probes of the rounds matter to the population. -/
theorem answers_pkI2cScan (hs : s.Sound r₀) (hsw : s.switcher ≠ .none) (hline : s.line = some current)
    (hrun : pkI2cScan t s = some ((), s')) : pop.Answers s.switcher (s.hub r₀) (s'.bus.drop s.bus.length) ↔
      pop.Answers s.switcher (s.hub r₀) ((rounds s.switcher s.wire scanLines current s.bus.length).flatMap Round.sent) := by
  obtain ⟨s₁, s₂, m₂, hscanned, -, hsw₁, -, -, hback, rfl⟩ := pkI2cScan_cases hsw hline hrun
  obtain ⟨⟨sent, hbus, hwrites⟩, -⟩ := pkI2cSwitch_frame (by rw [hsw₁]; exact hs.known) hback
  dsimp only
  rw [hbus, hscanned.bus, List.append_assoc, List.drop_left, Population.answers_append]
  exact and_iff_left (Population.answers_writes pop _ _ hwrites)

theorem scanCorrect_of_line (hs : s.Sound r₀) (hsw : s.switcher ≠ .none) (hline : s.line = some current)
    (hrun : pkI2cScan t s = some ((), s')) (hpop : pop.Answers s.switcher (s.hub r₀) (s'.bus.drop s.bus.length)) :
    ScanCorrect pop r₀ s s' ↔ s.Faithful pop r₀ ∧ s.Restores r₀ := by
  rw [answers_pkI2cScan hs hsw hline hrun] at hpop
  obtain ⟨s₁, s₂, m₂, hscanned, -, hsw₁, hwire₁, hsound, hback, rfl⟩ := pkI2cScan_cases hsw hline hrun
  obtain ⟨-, hreports⟩ := pkI2cSwitch_frame (by rw [hsw₁]; exact hs.known) hback
  have hrestores := switchBack_restores hs (hsound r₀ hs) hsw hline hscanned hsw₁ hwire₁ hback
  rw [← hscanned.faithful_iff hsw hs.known hline hpop, ← hrestores, ← hreports]
  exact Iff.rfl

/-- **What `pk_i2c_scan` finds is on the lines that it reports, and it ends on the line it was called on, exactly where whatever answers in place of a line that could not be selected is on that line too, and the line from before is selected again.** -/
theorem scanCorrect_iff {w : World Task} (hw : (i2cTools Task).ReachableUnder Known w)
    (hrun : pkI2cScan t w.tools = some ((), s'))
    (hpop : pop.Answers w.tools.switcher (w.tools.hub r₀) (s'.bus.drop w.tools.bus.length)) :
    ScanCorrect pop r₀ w.tools s' ↔ (w.tools.switcher ≠ .none → w.tools.Faithful pop r₀ ∧ w.tools.Restores r₀) := by
  obtain ⟨m, m', hm, htake⟩ := exists_take_of_lock hrun
  by_cases hsw : w.tools.switcher = .none
  · exact iff_of_true (pkI2cScan_none hsw hrun) fun hne => absurd hsw hne
  · obtain ⟨current, hline⟩ := Option.ne_none_iff_exists'.1 (begun_of_reachable hw (by rw [hm]; exact Option.some_ne_none m))
    rw [imp_iff_right hsw]
    exact scanCorrect_of_line (sound_of_reachable hw r₀) hsw hline hrun hpop

theorem scanCorrect_iff_begun : ∃ s', pkI2cScan false pca9547Begun.tools = some ((), s') ∧
    ScanCorrect (fun _ _ => true) 0 pca9547Begun.tools s' := by
  have hsound := sound_of_reachable pca9547Begun_known 0
  obtain ⟨s', hrun, -, -⟩ := pkI2cScan_spec (t := false) (begun_of_reachable pca9547Begun_known) rfl rfl
  have hanswers : Population.Answers (fun _ _ => true) pca9547Begun.tools.switcher (pca9547Begun.tools.hub 0)
      ((rounds pca9547Begun.tools.switcher pca9547Begun.tools.wire scanLines 0 pca9547Begun.tools.bus.length).flatMap
        Round.sent) := by decide +kernel
  have hpop := (answers_pkI2cScan hsound Switcher.noConfusion rfl hrun).2 hanswers
  refine ⟨s', hrun, (scanCorrect_iff pca9547Begun_known hrun hpop).2 fun _ => ⟨?_, .inr ⟨?_, rfl⟩⟩⟩
  · intro _ _ _ _ _ _
    rfl
  · decide

/-- The transmissions that succeed: lines 0 and 3 are selected and line 4 is not, and a device of line 3 answers twice. -/
def succeeding : List Nat := [0, 1, 66, 186, 241, 361, 481, 601]

def line4Fails : World Bool := ⟨⟨.none, none, none, fun i => if i ∈ succeeding then 0 else 2, [], []⟩, fun _ => 0⟩

def line4FailsBegun : World Bool := (System.runSteps World.step line4Fails [.call true (.begin .pca9547)]).getD line4Fails

private theorem line4FailsBegun_known : (i2cTools Bool).ReachableUnder Known line4FailsBegun :=
  System.reachableUnder_runSteps [.call true (.begin .pca9547)] (.init (show line4Fails.Init from ⟨rfl, rfl, rfl, rfl⟩)) rfl

/-- The device with address 72 on line 3. -/
def onLine3 : Population := fun line address => address = 72 && line = some 3

/-- It is reported on line 4 too. -/
theorem not_scanCorrect : ¬ ∀ (w : World Bool) (t : Bool) (s' : Tools Bool) (pop : Population) (r₀ : UInt8),
    (i2cTools Bool).ReachableUnder Known w → pkI2cScan t w.tools = some ((), s') →
      pop.Answers w.tools.switcher (w.tools.hub r₀) (s'.bus.drop w.tools.bus.length) → ScanCorrect pop r₀ w.tools s' := by
  intro h
  have hsound := sound_of_reachable line4FailsBegun_known 0
  obtain ⟨s', hrun, -, -⟩ := pkI2cScan_spec (t := true) (begun_of_reachable line4FailsBegun_known) rfl rfl
  have hanswers : onLine3.Answers line4FailsBegun.tools.switcher (line4FailsBegun.tools.hub 0)
      ((rounds line4FailsBegun.tools.switcher line4FailsBegun.tools.wire scanLines 0
        line4FailsBegun.tools.bus.length).flatMap Round.sent) := by decide +kernel
  have hpop := (answers_pkI2cScan hsound Switcher.noConfusion rfl hrun).2 hanswers
  have hcorrect := h line4FailsBegun true s' onLine3 0 line4FailsBegun_known hrun hpop
  obtain ⟨hfaithful, -⟩ := (scanCorrect_of_line hsound Switcher.noConfusion rfl hrun hpop).1 hcorrect
  have hline4 := hfaithful [3] 4 (by decide) 72 (by decide) (by decide +kernel)
  revert hline4
  decide

end Vedruino.I2c
