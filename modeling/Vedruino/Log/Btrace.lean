import Vedruino.Lib.PyInt

/-!
# The backtrace filter

`btrace.py` stands at the end of the pipe of every log session. It copies its input line by line, collects the entries of the backtraces that the board prints, and prints them with the functions and lines that `addr2line` finds. A line that it cannot read ends it with a `ValueError`.
-/

namespace Vedruino.Log

open PyInt

structure TraceRawEntry where
  pc : Int
  sp : Int
  deriving DecidableEq, Repr

structure TraceEntry where
  raw : TraceRawEntry
  func : List Char
  fileLine : List Char
  deriving DecidableEq, Repr

def pkbtracePref : List Char := "PKBTRACE ".toList

def panicPref : List Char := "Backtrace: ".toList

/-- What one place of the script prints: a backtrace, here without the colours and marks around it, or a line. -/
inductive Printed
  | pkbtrace (finished : Bool) (entries : List TraceEntry)
  | panic (extraMsg : List Char) (entries : List TraceEntry)
  | line (text : List Char)
  deriving DecidableEq, Repr

/-- The entries collected so far and what has been printed. -/
structure Btrace where
  pkbtraceRawEnts : List TraceRawEntry
  printed : List Printed
  deriving DecidableEq, Repr

/-- The standard input of `addr2line`. -/
def addr2lineInput (rawEntries : List TraceRawEntry) : List Char :=
  ['\n'].intercalate (rawEntries.map fun e => hex e.pc)

/-- Two lines for each entry. -/
def pairEntries : List TraceRawEntry → List (List Char) → List TraceEntry
  | raw :: raws, func :: fileLine :: lines => ⟨raw, func, fileLine⟩ :: pairEntries raws lines
  | _, _ => []

/-- The numbers of `pc:sp`; the first two characters of a number are not looked at. -/
def rawEntry (s : List Char) : Option TraceRawEntry :=
  match s.splitOn ':' with
  | [pc, sp] => (int16 (pc.drop 2)).bind fun pc => (int16 (sp.drop 2)).map fun sp => ⟨pc, sp⟩
  | _ => none

/-- An item of a panic line, after the entries and the message of those before it. -/
def panicItem (r : List TraceRawEntry × List Char) (es : List Char) : Option (List TraceRawEntry × List Char) :=
  if es = "|<-CORRUPTED".toList then some (r.1, " CORRUPTED".toList)
  else if es = "|<-CONTINUES".toList then some (r.1, " CONTINUES".toList)
  else (rawEntry es).map fun e => (r.1 ++ [e], r.2)

def panicItems (s : List Char) : Option (List TraceRawEntry × List Char) := (s.splitOn ' ').foldlM panicItem ([], [])

/-- The lines of the input that have a line feed, without it. -/
def fullLines (input : List Char) : List (List Char) := (input.splitOn '\n').dropLast

/-- What follows the last line feed. -/
def lastLine (input : List Char) : List Char := (input.splitOn '\n').getLastD []

/-- The lines that `sys.stdin` gives, with their line feeds. -/
def readLines (input : List Char) : List (List Char) :=
  (fullLines input).map (· ++ ['\n']) ++ if lastLine input = [] then [] else [lastLine input]

section

-- from the input of `addr2line` to its output
variable (addr2line : List Char → List Char)

/-- `run_addr2line`; `none` is a failed assertion. -/
def runAddr2line (rawEntries : List TraceRawEntry) : Option (List TraceEntry) :=
  let lines := (addr2line (addr2lineInput rawEntries)).splitOn '\n'
  if lines.getLast? ≠ some [] then none
  else
    let lines := lines.dropLast
    if lines.length % 2 ≠ 0 ∨ lines.length / 2 ≠ rawEntries.length then none else some (pairEntries rawEntries lines)

namespace Btrace

def start : Btrace := ⟨[], []⟩

/-- `dump_pkbtrace`. An error carries the state at the exception. -/
def dumpPkbtrace (finished : Bool) (s : Btrace) : Except Btrace Btrace :=
  if s.pkbtraceRawEnts = [] then .ok s
  else
    match runAddr2line addr2line s.pkbtraceRawEnts with
    | none => .error s
    | some entries => .ok ⟨[], s.printed ++ [.pkbtrace finished entries]⟩

/-- The branch for a panic line, after its prefix. -/
def onPanic (s : Btrace) (text : List Char) : Except Btrace Btrace := do
  let s ← dumpPkbtrace addr2line false s
  match panicItems text with
  | none => .error s
  | some (panic, extraMsg) =>
    match runAddr2line addr2line panic with
    | none => .error s
    | some ents => .ok { s with printed := s.printed ++ [.panic extraMsg ents] }

/-- The body of the loop over `sys.stdin`. -/
def onLine (s : Btrace) (line : List Char) : Except Btrace Btrace :=
  let line := line.dropLast
  if pkbtracePref <+: line then
    let text := line.drop pkbtracePref.length
    if text = "END".toList then dumpPkbtrace addr2line true s
    else if text = "START".toList then dumpPkbtrace addr2line false s
    else
      match rawEntry text with
      | none => .error s
      | some e => .ok { s with pkbtraceRawEnts := s.pkbtraceRawEnts ++ [e] }
  else if panicPref <+: line then onPanic addr2line s (line.drop panicPref.length)
  -- the last character is cut off a second time
  else .ok { s with printed := s.printed ++ [.line line.dropLast] }

/-- The script over the whole input. -/
def main (input : List Char) : Except Btrace Btrace := (readLines input).foldlM (onLine addr2line) start

end Btrace

end

/-- What has been printed when the script ends, also by an exception. -/
def Btrace.ended : Except Btrace Btrace → Btrace
  | .ok s | .error s => s

/-- `addr2line -f` prints the function and the line of each address. -/
def TwoLines (addr2line : List Char → List Char) : Prop :=
  ∀ rawEntries : List TraceRawEntry, ∃ ls : List (List Char), ls.length = 2 * rawEntries.length ∧ (∀ l ∈ ls, '\n' ∉ l) ∧
    addr2line (addr2lineInput rawEntries) = ls.flatMap (· ++ ['\n'])

/-- `addr2line` where it knows none of the addresses. -/
def unknownAddresses (input : List Char) : List Char :=
  if input = [] then [] else (input.splitOn '\n').flatMap fun _ => "??\n??:0\n".toList

private theorem newline_not_mem_hex (n : Int) : '\n' ∉ hex n := by
  intro hmem
  rcases List.mem_append.1 hmem with hmem | hmem
  · split at hmem
    · revert hmem
      decide
    · cases hmem
  · simp only [List.mem_cons, Char.reduceEq, false_or] at hmem
    have hhex := isHex_of_mem_toDigits hmem
    revert hhex
    decide

theorem unknownAddresses_twoLines : TwoLines unknownAddresses := by
  intro rawEntries
  refine ⟨rawEntries.flatMap fun _ => ["??".toList, "??:0".toList], ?_, ?_, ?_⟩
  · simp [List.length_flatMap, Nat.mul_comm]
  · intro l hl
    obtain ⟨_, -, hl⟩ := List.mem_flatMap.1 hl
    simp only [List.mem_cons, List.not_mem_nil, or_false] at hl
    rcases hl with rfl | rfl <;> decide
  · rw [unknownAddresses, addr2lineInput]
    cases rawEntries with
    | nil => rfl
    | cons e es =>
      have hlines : ∀ l ∈ (e :: es).map fun e => hex e.pc, '\n' ∉ l := by
        intro l hl
        obtain ⟨e, -, rfl⟩ := List.mem_map.1 hl
        exact newline_not_mem_hex e.pc
      have hsplit := List.splitOn_intercalate '\n' hlines (List.cons_ne_nil _ _)
      rw [if_neg, hsplit, List.flatMap_map, List.flatMap_assoc]
      · rfl
      · intro hnil
        rw [hnil, List.splitOn_nil, List.map_cons] at hsplit
        have hhex := (List.cons.inj hsplit).1
        simp [hex] at hhex

/-! ### What a line is -/

/-- What the script takes a line for, without its line feed. -/
inductive Mark
  | entry (e : TraceRawEntry)
  | finish
  | start
  | panic
  | unreadable
  | ordinary
  deriving DecidableEq, Repr

def mark (text : List Char) : Mark :=
  if pkbtracePref <+: text then
    let text := text.drop pkbtracePref.length
    if text = "END".toList then .finish
    else if text = "START".toList then .start
    else
      match rawEntry text with
      | none => .unreadable
      | some e => .entry e
  else if panicPref <+: text then if (panicItems (text.drop panicPref.length)).isSome then .panic else .unreadable
  else .ordinary

/-- The line ends a backtrace that the board has not finished. -/
def Mark.Cuts (m : Mark) : Prop := m = .start ∨ m = .panic

def Mark.Closes (m : Mark) : Prop := m = .finish ∨ m.Cuts

/-- A backtrace without what `addr2line` finds. -/
structure Backtrace where
  finished : Bool
  entries : List TraceRawEntry
  deriving DecidableEq, Repr

def Printed.backtrace? : Printed → Option Backtrace
  | .pkbtrace finished entries => some ⟨finished, entries.map TraceEntry.raw⟩
  | _ => none

def Printed.line? : Printed → Option (List Char)
  | .line text => some text
  | _ => none

namespace Btrace

/-- The backtraces of the board among what has been printed. -/
def backtraces (s : Btrace) : List Backtrace := s.printed.filterMap Printed.backtrace?

/-- The lines that are left when the backtraces are deleted. -/
def lines (s : Btrace) : List (List Char) := s.printed.filterMap Printed.line?

end Btrace

/-- There is no backtrace without entries. -/
def close (finished : Bool) (es : List TraceRawEntry) : List Backtrace := if es = [] then [] else [⟨finished, es⟩]

theorem flatten_dropLast {ls : List (List Char)} (h : ls ≠ []) :
    (ls.dropLast.map (· ++ ['\n'])).flatten ++ ls.getLastD [] = ['\n'].intercalate ls := by
  induction ls with
  | nil => exact absurd rfl h
  | cons l ls ih =>
    cases ls with
    | nil => simp
    | cons l' ls =>
      rw [List.dropLast_cons_cons, List.map_cons, List.flatten_cons, List.append_assoc, List.intercalate_cons_cons,
        ← ih (List.cons_ne_nil _ _)]
      rfl

/-- The lines as the script looks at them: without their last character. -/
theorem map_dropLast_readLines (input : List Char) : (readLines input).map List.dropLast =
    fullLines input ++ if lastLine input = [] then [] else [(lastLine input).dropLast] := by
  have hfull : (fullLines input).map (List.dropLast ∘ (· ++ ['\n'])) = (fullLines input).map id := by
    apply List.map_congr_left
    intro l _
    exact List.dropLast_concat
  rw [readLines, List.map_append, List.map_map, hfull, List.map_id]
  split
  · rfl
  · rfl

theorem splitOn_flatMap {ls : List (List Char)} (hls : ∀ l ∈ ls, '\n' ∉ l) :
    (ls.flatMap (· ++ ['\n'])).splitOn '\n' = ls ++ [[]] := by
  induction ls with
  | nil => rfl
  | cons l ls ih =>
    obtain ⟨hl, hls⟩ := List.forall_mem_cons.1 hls
    rw [List.flatMap_cons, List.append_assoc, List.singleton_append, List.splitOn_append_cons_self_of_not_mem hl, ih hls]
    rfl

private theorem raw_pairEntries {raws : List TraceRawEntry} {ls : List (List Char)} (h : ls.length = 2 * raws.length) :
    (pairEntries raws ls).map TraceEntry.raw = raws := by
  induction raws generalizing ls with
  | nil => cases ls <;> rfl
  | cons raw raws ih =>
    rw [List.length_cons] at h
    match ls, h with
    | func :: fileLine :: ls, h =>
      rw [pairEntries, List.map_cons, ih]
      simp only [List.length_cons] at h
      omega

variable {addr2line : List Char → List Char}

theorem runAddr2line_eq (h : TwoLines addr2line) (raws : List TraceRawEntry) :
    ∃ entries, runAddr2line addr2line raws = some entries ∧ entries.map TraceEntry.raw = raws := by
  obtain ⟨ls, hlen, hls, hout⟩ := h raws
  refine ⟨pairEntries raws ls, ?_, raw_pairEntries hlen⟩
  unfold runAddr2line
  rw [hout, splitOn_flatMap hls]
  dsimp only
  rw [List.getLast?_concat, if_neg (not_not.2 rfl), List.dropLast_concat, hlen, if_neg]
  omega

namespace Btrace

variable {s s' : Btrace}

theorem dumpPkbtrace_spec (h : TwoLines addr2line) (finished : Bool) (s : Btrace) :
    ∃ s', dumpPkbtrace addr2line finished s = .ok s' ∧ s'.pkbtraceRawEnts = [] ∧
      s'.backtraces = s.backtraces ++ close finished s.pkbtraceRawEnts ∧ s'.lines = s.lines := by
  obtain ⟨entries, hrun, hraw⟩ := runAddr2line_eq h s.pkbtraceRawEnts
  rw [dumpPkbtrace, close]
  split
  · next hnil => exact ⟨s, rfl, hnil, (List.append_nil _).symm, rfl⟩
  · rw [hrun]
    refine ⟨_, rfl, rfl, ?_, ?_⟩
    · simp [backtraces, Printed.backtrace?, hraw]
    · simp [lines, Printed.line?]

/-- What a line does. -/
inductive Handles (s : Btrace) (text : List Char) : Mark → Except Btrace Btrace → Prop
  | entry (e : TraceRawEntry) : Handles s text (.entry e) (.ok { s with pkbtraceRawEnts := s.pkbtraceRawEnts ++ [e] })
  | closes {m : Mark} {s' : Btrace} : m.Closes → s'.pkbtraceRawEnts = [] →
      s'.backtraces = s.backtraces ++ close (m = .finish) s.pkbtraceRawEnts → s'.lines = s.lines → Handles s text m (.ok s')
  | ordinary : Handles s text .ordinary (.ok { s with printed := s.printed ++ [.line text.dropLast] })
  | unreadable {s' : Btrace} : s'.lines = s.lines → Handles s text .unreadable (.error s')

private theorem onPanic_handles (h : TwoLines addr2line) (s : Btrace) (text items : List Char) :
    Handles s text (if (panicItems items).isSome then .panic else .unreadable) (onPanic addr2line s items) := by
  obtain ⟨s₁, hdump, hpending, hbacktraces, hlines⟩ := dumpPkbtrace_spec h false s
  rw [onPanic, hdump]
  show Handles s text _ (match panicItems items with
    | none => .error s₁
    | some (panic, extraMsg) =>
      match runAddr2line addr2line panic with
      | none => .error s₁
      | some ents => .ok { s₁ with printed := s₁.printed ++ [.panic extraMsg ents] })
  cases panicItems items with
  | none => exact .unreadable hlines
  | some r =>
    obtain ⟨entries, hrun, -⟩ := runAddr2line_eq h r.1
    dsimp only
    rw [hrun]
    refine .closes (.inr (.inr rfl)) hpending ?_ ?_
    · refine Eq.trans ?_ hbacktraces
      simp [backtraces, List.filterMap_cons, Printed.backtrace?]
    · refine Eq.trans ?_ hlines
      simp [lines, List.filterMap_cons, Printed.line?]

theorem onLine_handles (h : TwoLines addr2line) (s : Btrace) (line : List Char) :
    Handles s line.dropLast (mark line.dropLast) (onLine addr2line s line) := by
  rw [onLine, mark]
  dsimp only
  split
  · split
    · obtain ⟨s', hdump, hpending, hbacktraces, hlines⟩ := dumpPkbtrace_spec h true s
      rw [hdump]
      exact .closes (.inl rfl) hpending hbacktraces hlines
    · split
      · obtain ⟨s', hdump, hpending, hbacktraces, hlines⟩ := dumpPkbtrace_spec h false s
        rw [hdump]
        exact .closes (.inr (.inl rfl)) hpending hbacktraces hlines
      · cases rawEntry (line.dropLast.drop pkbtracePref.length) with
        | none => exact .unreadable rfl
        | some e => exact .entry e
  · split
    · exact onPanic_handles h s _ _
    · exact .ordinary

end Btrace

end Vedruino.Log
