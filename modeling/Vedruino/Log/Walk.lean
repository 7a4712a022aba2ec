import Vedruino.Lib.CLiteral
import Vedruino.Log.Backtraces
import Vedruino.Log.Lines
import Vedruino.Log.Mon

/-!
# From the stack to the terminal

`pk_log_btrace` walks over the stack of the task that calls it and prints a line for each of the functions that called one another. `make mon` sends what the board prints through `mon.py` and `btrace.py`. A task prints its backtrace with the mutex taken, so the lines of two backtraces do not mix, but other lines may come between them.
-/

namespace Vedruino.Log

open CLiteral (utf8 utf8_cons utf8_append utf8_char)

/-! ### The stack -/

/-- The words of the memory by their addresses. -/
abbrev Memory := BitVec 32 → BitVec 32

/-- `pk_btrace_get_start` with its own stack pointer, after `xthal_window_spill`: `pc`, `sp` and `next_pc`. -/
def pkBtraceGetStart (m : Memory) (sp : BitVec 32) : BitVec 32 × BitVec 32 × BitVec 32 :=
  let a5 := m (sp - 16)
  let a6 := m (sp - 12)
  (a5, m (a6 - 12), m (a6 - 16))

/-- `a0` and `a1` of a function that has called another one: where it will return to, and its stack pointer. -/
structure Frame where
  a0 : BitVec 32
  a1 : BitVec 32
  deriving DecidableEq, Repr

/-- Below the stack pointer of each function are the registers of the one that called it. -/
def Spilled (m : Memory) : BitVec 32 → List Frame → Prop
  | _, [] => True
  | sp, f :: fs => m (sp - 16) = f.a0 ∧ m (sp - 12) = f.a1 ∧ Spilled m f.a1 fs

/-- Only the outermost function returns nowhere. -/
def Ends : List Frame → Prop
  | [] => False
  | [f] => f.a0 = 0
  | f :: g :: fs => f.a0 ≠ 0 ∧ Ends (g :: fs)

/-- The stack below `pk_btrace_get_start`; the first frame is that of `pk_log_btrace`. -/
structure Stack where
  memory : Memory
  sp : BitVec 32
  frames : List Frame
  spilled : Spilled memory sp frames
  ends : Ends frames

/-- Where each function will go on after the call, with its stack pointer. -/
def calls : List Frame → List (BitVec 32 × BitVec 32)
  | f :: g :: fs => (f.a0, g.a1) :: calls (g :: fs)
  | _ => []

def startLine : List Char := pkbtracePref ++ "START".toList

def endLine : List Char := pkbtracePref ++ "END".toList

section

variable (espCpuProcessStackPc : BitVec 32 → BitVec 32)

/-- The loop of `pk_log_btrace`; `none` is too little fuel. -/
def btraceLoop (m : Memory) : Nat → BitVec 32 → BitVec 32 → BitVec 32 → Option (List (List Char))
  | 0, _, _, _ => none
  | fuel + 1, pc, sp, nextPc =>
    if pc ≠ 0 then
      (btraceLoop m fuel nextPc (m (sp - 12)) (m (sp - 16))).map (entryLine (espCpuProcessStackPc pc) sp :: ·)
    else some []

/-- The lines that `pk_log_btrace` prints. -/
def pkLogBtrace (m : Memory) (sp : BitVec 32) (fuel : Nat) : Option (List (List Char)) :=
  let start := pkBtraceGetStart m sp
  (btraceLoop espCpuProcessStackPc m fuel start.1 start.2.1 start.2.2).map fun ls => startLine :: (ls ++ [endLine])

def entryOf (c : BitVec 32 × BitVec 32) : TraceRawEntry := ⟨(espCpuProcessStackPc c.1).toNat, c.2.toNat⟩

/-- The entries of the backtrace of the stack. -/
def Stack.entries (s : Stack) : List TraceRawEntry := (calls s.frames).map (entryOf espCpuProcessStackPc)

def Stack.lines (s : Stack) : List (List Char) :=
  startLine :: ((calls s.frames).map (fun c => entryLine (espCpuProcessStackPc c.1) c.2) ++ [endLine])

variable {espCpuProcessStackPc : BitVec 32 → BitVec 32}

private theorem btraceLoop_frames {m : Memory} {f : Frame} {fs : List Frame} (hspilled : Spilled m f.a1 fs) (hends : Ends (f :: fs))
    {fuel : Nat} (hfuel : fs.length < fuel) : btraceLoop espCpuProcessStackPc m fuel f.a0 (m (f.a1 - 12)) (m (f.a1 - 16)) =
      some ((calls (f :: fs)).map fun c => entryLine (espCpuProcessStackPc c.1) c.2) := by
  induction fs generalizing f fuel with
  | nil =>
    obtain ⟨fuel, rfl⟩ := Nat.exists_eq_succ_of_ne_zero (Nat.ne_zero_of_lt hfuel)
    exact if_neg (not_not.2 hends)
  | cons g fs ih =>
    obtain ⟨fuel, rfl⟩ := Nat.exists_eq_succ_of_ne_zero (Nat.ne_zero_of_lt hfuel)
    obtain ⟨ha0, ha1, hrest⟩ := hspilled
    rw [btraceLoop, if_pos hends.1, ha0, ha1, ih hrest hends.2 (Nat.lt_of_succ_lt_succ hfuel)]
    rfl

theorem pkLogBtrace_eq (s : Stack) {fuel : Nat} (hfuel : s.frames.length ≤ fuel) :
    pkLogBtrace espCpuProcessStackPc s.memory s.sp fuel = some (s.lines espCpuProcessStackPc) := by
  obtain ⟨m, sp, frames, hspilled, hends⟩ := s
  cases frames with
  | nil => exact hends.elim
  | cons f fs =>
    obtain ⟨ha0, ha1, hrest⟩ := hspilled
    have hloop : btraceLoop espCpuProcessStackPc m fuel (m (sp - 16)) (m (m (sp - 12) - 12)) (m (m (sp - 12) - 16)) =
        some ((calls (f :: fs)).map fun c => entryLine (espCpuProcessStackPc c.1) c.2) := by
      rw [ha0, ha1]
      exact btraceLoop_frames hrest hends (Nat.lt_of_succ_le hfuel)
    exact congrArg (Option.map fun ls => startLine :: (ls ++ [endLine])) hloop

/-! ### The entries in the log -/

theorem mark_startLine : mark startLine = .start := by decide

private theorem mark_endLine : mark endLine = .finish := by decide

theorem map_mark_lines (s : Stack) : (s.lines espCpuProcessStackPc).map mark =
    .start :: ((s.entries espCpuProcessStackPc).map .entry ++ [.finish]) := by
  have hcalls : ((calls s.frames).map fun c => entryLine (espCpuProcessStackPc c.1) c.2).map mark =
      (s.entries espCpuProcessStackPc).map .entry := by
    rw [Stack.entries, List.map_map, List.map_map]
    exact List.map_congr_left fun c _ => mark_entryLine _ _
  rw [Stack.lines, List.map_cons, List.map_append, hcalls, mark_startLine, List.map_singleton, mark_endLine]

end

private theorem scan_snd_append (es : List TraceRawEntry) (ms ns : List Mark) :
    (scan es (ms ++ ns)).2 = (scan (scan es ms).2 ns).2 := by
  induction ms generalizing es with
  | nil => rfl
  | cons m ms ih => exact ih _

theorem scan_entries (es fs : List TraceRawEntry) : scan es (fs.map .entry) = ([], es ++ fs) := by
  induction fs generalizing es with
  | nil => rw [List.append_nil]; rfl
  | cons e fs ih =>
    rw [List.map_cons, scan, ih]
    simp [Mark.next]

/-- A whole backtrace leaves nothing, and is printed as finished. -/
theorem scan_backtrace (fs : List TraceRawEntry) (ms : List Mark) :
    scan [] (.start :: (fs.map .entry ++ [.finish]) ++ ms) = (close true fs ++ (scan [] ms).1, (scan [] ms).2) := by
  have hstart : Mark.start.next [] = ([], []) := rfl
  have hwhole : scan [] (fs.map .entry ++ [.finish]) = (close true fs, []) := by
    refine Prod.ext ?_ ?_
    · rw [scan_append, scan_entries]
      exact List.append_nil _
    · rw [scan_snd_append, scan_entries]
      rfl
  rw [List.cons_append, scan, hstart]
  refine Prod.ext ?_ ?_
  · dsimp only
    rw [scan_append, hwhole]
    rfl
  · dsimp only
    rw [scan_snd_append, hwhole]

/-- The ordinary lines between the lines of a backtrace change nothing. -/
theorem scan_filter (es : List TraceRawEntry) (ls : List (List Char)) :
    scan es (ls.map mark) = scan es ((ls.filter fun l => ¬ Ordinary l).map mark) := by
  induction ls generalizing es with
  | nil => rfl
  | cons l ls ih =>
    by_cases hl : Ordinary l
    · rw [List.filter_cons_of_neg (by simpa using hl), ← ih, List.map_cons, scan, mark_eq_ordinary_iff.2 hl]
      rfl
    · rw [List.filter_cons_of_pos (by simpa using hl), List.map_cons, List.map_cons, scan, scan, ih]

/-- What lines print that can all be read. -/
theorem shown_of_readable {ls : List (List Char)} (h : ∀ l ∈ ls, mark l ≠ .unreadable) :
    shown ls = (ls.filter (Ordinary ·)).map List.dropLast := by
  induction ls with
  | nil => rfl
  | cons l ls ih =>
    obtain ⟨hl, hls⟩ := List.forall_mem_cons.1 h
    rw [shown, if_neg hl, ih hls]
    by_cases hordinary : Ordinary l
    · rw [if_pos (mark_eq_ordinary_iff.2 hordinary), List.filter_cons_of_pos (by simpa using hordinary), List.map_cons]
    · rw [if_neg (mark_eq_ordinary_iff.not.2 hordinary), List.filter_cons_of_neg (by simpa using hordinary)]

/-- What the board prints: lines with their line feeds. -/
def logText (ls : List (List Char)) : List Char := ls.flatMap (· ++ ['\n'])

private theorem readLines_logText {ls : List (List Char)} (hls : ∀ l ∈ ls, '\n' ∉ l) : readLines (logText ls) = ls.map (· ++ ['\n']) := by
  have hsplit := splitOn_flatMap hls
  rw [readLines, fullLines, lastLine, logText, hsplit, List.dropLast_concat, List.getLastD_concat, if_pos rfl, List.append_nil]

/-! ### The serial port -/

/-- What the UART driver sends of a text: each line feed alone or with a carriage return before it. -/
def uart (crlf : Bool) (bs : List UInt8) : List UInt8 := bs.flatMap fun b => if crlf ∧ b = lf then [cr, lf] else [b]

private theorem getLast_uart {crlf : Bool} {bs : List UInt8} (h : cr ∉ bs) : (uart crlf bs).getLast? ≠ some cr := by
  rcases List.eq_nil_or_concat bs with rfl | ⟨init, b, rfl⟩
  · exact nofun
  · rw [List.concat_eq_append, List.mem_append, not_or, List.mem_singleton] at h
    rw [List.concat_eq_append, uart, List.flatMap_append, List.flatMap_singleton]
    split
    · rw [List.getLast?_append_of_ne_nil _ (List.cons_ne_nil _ _)]
      decide
    · rw [List.getLast?_concat]
      exact fun heq => h.2 (Option.some.inj heq).symm

private theorem crlfToLf_uart {crlf : Bool} {bs : List UInt8} (h : cr ∉ bs) : crlfToLf (uart crlf bs) = bs := by
  induction bs with
  | nil => rfl
  | cons b bs ih =>
    rw [List.mem_cons, not_or] at h
    have hrest : crlfToLf (uart crlf bs) = bs := ih h.2
    rw [uart, List.flatMap_cons, ← uart]
    by_cases hb : crlf ∧ b = lf
    · rw [if_pos hb, hb.2]
      show crlfToLf (cr :: lf :: uart crlf bs) = _
      rw [crlfToLf, if_pos ⟨rfl, rfl⟩, crlfToLf, if_neg fun h => absurd h.1 (by decide), hrest]
    · rw [if_neg hb]
      show crlfToLf (b :: uart crlf bs) = _
      rw [crlfToLf, if_neg fun hcr => h.1 hcr.1.symm, hrest]

private theorem cr_not_mem_utf8 {cs : List Char} (h : '\r' ∉ cs) : cr ∉ utf8 cs := by
  induction cs with
  | nil => exact List.not_mem_nil
  | cons c cs ih =>
    rw [List.mem_cons, not_or] at h
    rw [utf8_cons, List.mem_append, not_or]
    refine ⟨?_, ih h.2⟩
    intro hcr
    rcases utf8_char c with ⟨heq, hascii⟩ | ⟨-, hhigh⟩
    · rw [heq, List.mem_singleton] at hcr
      have hnat := congrArg UInt8.toNat hcr
      rw [UInt8.toNat_ofNat', Nat.mod_eq_of_lt (by omega)] at hnat
      exact h.1 (Char.toNat_inj.1 hnat)
    · exact absurd (hhigh cr hcr) (by decide)

theorem monitor_reads {crlf : Bool} {text : List Char} (h : '\r' ∉ text) :
    (Mon.run false (uart crlf (utf8 text))).written = utf8 text := by
  have hcr := cr_not_mem_utf8 h
  rw [Mon.run_eq, Mon.after, released, if_neg (getLast_uart hcr)]
  exact crlfToLf_uart hcr

/-! ### The whole pipe -/

/-- The lines that are no ordinary ones are those of the backtraces of these stacks, one after the other. -/
structure Logs (espCpuProcessStackPc : BitVec 32 → BitVec 32) (tasks : List Stack) (ls : List (List Char)) : Prop where
  plain : ∀ l ∈ ls, '\n' ∉ l ∧ '\r' ∉ l
  backtraces : (ls.filter fun l => ¬ Ordinary l) = tasks.flatMap (Stack.lines espCpuProcessStackPc)

variable {espCpuProcessStackPc : BitVec 32 → BitVec 32}

theorem scan_tasks (tasks : List Stack) : scan [] ((tasks.flatMap (Stack.lines espCpuProcessStackPc)).map mark) =
    (tasks.flatMap fun s => close true (s.entries espCpuProcessStackPc), []) := by
  induction tasks with
  | nil => rfl
  | cons s tasks ih => rw [List.flatMap_cons, List.map_append, map_mark_lines, scan_backtrace, ih, List.flatMap_cons]

private theorem readable_of_lines {s : Stack} {l : List Char} (hl : l ∈ s.lines espCpuProcessStackPc) : mark l ≠ .unreadable := by
  have hmark : mark l ∈ (s.lines espCpuProcessStackPc).map mark := List.mem_map_of_mem hl
  rw [map_mark_lines, List.mem_cons, List.mem_append, List.mem_map, List.mem_singleton] at hmark
  rcases hmark with hstart | ⟨e, -, hentry⟩ | hend
  · rw [hstart]
    exact Mark.noConfusion
  · rw [← hentry]
    exact Mark.noConfusion
  · rw [hend]
    exact Mark.noConfusion

theorem Logs.readable {tasks : List Stack} {ls : List (List Char)} (h : Logs espCpuProcessStackPc tasks ls) :
    ∀ l ∈ ls, mark l ≠ .unreadable := by
  intro l hl
  by_cases hordinary : Ordinary l
  · rw [mark_eq_ordinary_iff.2 hordinary]
    exact Mark.noConfusion
  · have hmem : l ∈ ls.filter fun l => ¬ Ordinary l := List.mem_filter.2 ⟨hl, by simpa using hordinary⟩
    rw [h.backtraces] at hmem
    obtain ⟨s, -, hs⟩ := List.mem_flatMap.1 hmem
    exact readable_of_lines hs

theorem Logs.cr_not_mem {tasks : List Stack} {ls : List (List Char)} (h : Logs espCpuProcessStackPc tasks ls) :
    '\r' ∉ logText ls := by
  intro hmem
  obtain ⟨l, hl, hmem⟩ := List.mem_flatMap.1 hmem
  rcases List.mem_append.1 hmem with hmem | hmem
  · exact (h.plain l hl).2 hmem
  · exact absurd (List.mem_singleton.1 hmem) (by decide)

theorem Logs.main {addr2line : List Char → List Char} (h : TwoLines addr2line) {tasks : List Stack} {ls : List (List Char)}
    (hlog : Logs espCpuProcessStackPc tasks ls) : ∃ b, Btrace.main addr2line (logText ls) = .ok b ∧
      b.backtraces = tasks.flatMap (fun s => close true (s.entries espCpuProcessStackPc)) ∧
      b.lines = (ls.filter (Ordinary ·)).map List.dropLast := by
  have hread := hlog.readable
  have hinput : readLines (logText ls) = ls.map (· ++ ['\n']) := readLines_logText fun l hl => (hlog.plain l hl).1
  have hdrop : (readLines (logText ls)).map List.dropLast = ls := by
    rw [hinput, List.map_map]
    refine (List.map_congr_left fun l _ => ?_).trans (List.map_id ls)
    exact List.dropLast_concat
  obtain ⟨b, hmain⟩ : ∃ b, Btrace.main addr2line (logText ls) = .ok b := by
    refine (Btrace.foldlM_onLine h .start _).2 ?_
    intro l hl
    exact hread _ (hdrop ▸ List.mem_map_of_mem hl)
  have hbacktraces := Btrace.backtraces_foldlM h hmain
  have hlines := Btrace.lines_foldlM h .start (readLines (logText ls))
  have hended : (readLines (logText ls)).foldlM (Btrace.onLine addr2line) .start = .ok b := hmain
  rw [hdrop] at hbacktraces hlines
  rw [hended] at hlines
  refine ⟨b, hmain, ?_, ?_⟩
  · refine hbacktraces.trans ?_
    show [] ++ (scan [] (ls.map mark)).1 = _
    rw [List.nil_append, scan_filter, hlog.backtraces, scan_tasks]
  · refine hlines.trans ?_
    show [] ++ shown ls = _
    rw [List.nil_append, shown_of_readable hread]

/-- **From the stacks of the tasks that log errors to the terminal, whatever comes between: every backtrace is printed as finished, with the addresses of all its callers in their order, and every other line but for its last character.** -/
theorem monitor_backtraces {addr2line : List Char → List Char} (h : TwoLines addr2line) {tasks : List Stack}
    {ls : List (List Char)} (hlog : Logs espCpuProcessStackPc tasks ls) (crlf : Bool) :
    (∀ s : Stack, ∀ fuel, s.frames.length ≤ fuel →
        pkLogBtrace espCpuProcessStackPc s.memory s.sp fuel = some (s.lines espCpuProcessStackPc)) ∧
      (Mon.run false (uart crlf (utf8 (logText ls)))).written = utf8 (logText ls) ∧
      ∃ b, Btrace.main addr2line (logText ls) = .ok b ∧
        b.backtraces = tasks.flatMap (fun s => close true (s.entries espCpuProcessStackPc)) ∧
        b.lines = (ls.filter (Ordinary ·)).map List.dropLast :=
  ⟨fun s _ hfuel => pkLogBtrace_eq s hfuel, monitor_reads hlog.cr_not_mem, hlog.main h⟩

/-- What ESP-IDF makes of a return address. -/
def callAddress (pc : BitVec 32) : BitVec 32 :=
  (if pc &&& 0x80000000 ≠ 0 then (pc &&& 0x3fffffff) ||| 0x40000000 else pc) - 3

/-- A function that was called by the outermost one logs an error. -/
def oneCall : Stack where
  memory := fun a => if a = 0x54 then 0x800d494f else if a = 0x58 then 0xc0 else if a = 0xb4 then 0x2260 else 0
  sp := 0x64
  frames := [⟨0x800d494f, 0xc0⟩, ⟨0, 0x2260⟩]
  spilled := ⟨by decide, by decide, by decide, by decide, trivial⟩
  ends := ⟨by decide, rfl⟩

/-- Another task prints between the lines of the backtrace. -/
def oneError : List (List Char) :=
  ["E failed".toList, startLine, "I other".toList, entryLine 0x400d494c 0x2260, endLine]

theorem monitor_backtraces_oneError : ∃ b, Btrace.main unknownAddresses (logText oneError) = .ok b ∧
    b.backtraces = [⟨true, [⟨0x400d494c, 0x2260⟩]⟩] ∧ b.lines = ["E faile".toList, "I othe".toList] := by
  have hlog : Logs callAddress [oneCall] oneError := ⟨by decide +kernel, by decide +kernel⟩
  obtain ⟨-, -, b, hmain, hbacktraces, hlines⟩ := monitor_backtraces unknownAddresses_twoLines hlog true
  exact ⟨b, hmain, hbacktraces.trans (by decide +kernel), hlines.trans (by decide +kernel)⟩

end Vedruino.Log
