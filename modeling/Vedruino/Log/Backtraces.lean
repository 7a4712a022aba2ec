import Vedruino.Log.Btrace

/-!
# The entries of the backtraces

The script prints what it has collected at an `END` line, and as not finished at a `START` line and at a panic line, but not at the end of its input. A line with its prefix that it cannot read ends it before.
-/

namespace Vedruino.Log

open PyInt

/-- `%08x`. -/
def format08x (n : BitVec 32) : List Char := (Nat.toDigits 16 n.toNat).leftpad 8 '0'

/-- A complete entry line of `pk_log_btrace`, without its line feed. -/
def entryLine (pc sp : BitVec 32) : List Char := pkbtracePref ++ "0x".toList ++ format08x pc ++ ":0x".toList ++ format08x sp

def Mark.raw? : Mark → Option TraceRawEntry
  | .entry e => some e
  | _ => none

/-- What a line prints after these entries, and what it leaves for a later one. -/
def Mark.next (es : List TraceRawEntry) : Mark → List Backtrace × List TraceRawEntry
  | .entry e => ([], es ++ [e])
  | .finish => (close true es, [])
  | .start | .panic => (close false es, [])
  | .unreadable | .ordinary => ([], es)

/-- The backtraces of the lines that come after these entries. The end of the input closes the last one. -/
def backtraces : List TraceRawEntry → List Mark → List Backtrace
  | es, [] => close false es
  | es, m :: ms => (m.next es).1 ++ backtraces (m.next es).2 ms

/-- All lines of the input. -/
def allLines (input : List Char) : List (List Char) :=
  fullLines input ++ if lastLine input = [] then [] else [lastLine input]

/-- The script reads the whole input and prints its backtraces, each entry in one of them and in order. -/
structure Conserves (addr2line : List Char → List Char) (input : List Char) : Prop where
  reads : ∃ s, Btrace.main addr2line input = .ok s
  entries : (Btrace.ended (Btrace.main addr2line input)).backtraces.flatMap Backtrace.entries =
    (allLines input).filterMap fun l => (mark l).raw?
  finished : (Btrace.ended (Btrace.main addr2line input)).backtraces = backtraces [] ((allLines input).map mark)

/-- The script can read every line, and prints every backtrace before the input ends: a last line without a line feed is taken without its last character, and closes a backtrace only as a cut one. -/
structure Flushed (input : List Char) : Prop where
  readable : ∀ l ∈ readLines input, mark l.dropLast ≠ .unreadable
  closed : ∀ l after e, l :: after <:+ fullLines input → mark l = .entry e →
    (∃ u ∈ after, (mark u).Closes) ∨ (mark (lastLine input).dropLast).Cuts
  last : (mark (lastLine input)).raw? = none

/-! ### Complete lines -/

theorem not_mem_format08x {c : Char} (hc : CLiteral.isHex c = false) (n : BitVec 32) : c ∉ format08x n := by
  intro hmem
  rcases List.mem_append.1 hmem with hmem | hmem
  · rw [List.eq_of_mem_replicate hmem] at hc
    cases hc
  · rw [isHex_of_mem_toDigits hmem] at hc
    cases hc

theorem rawEntry_format08x (pc sp : BitVec 32) :
    rawEntry ("0x".toList ++ format08x pc ++ ':' :: ("0x".toList ++ format08x sp)) = some ⟨pc.toNat, sp.toNat⟩ := by
  have hnot : ∀ n, ':' ∉ "0x".toList ++ format08x n := by
    intro n hmem
    rcases List.mem_append.1 hmem with hmem | hmem
    · revert hmem
      decide
    · exact not_mem_format08x (by decide) n hmem
  have hdrop : ∀ n : BitVec 32, int16 (("0x".toList ++ format08x n).drop 2) = some (n.toNat : Int) := fun n =>
    int16_leftpad 8 n.toNat
  rw [rawEntry, List.splitOn_append_cons_self_of_not_mem (hnot pc), List.splitOn_eq_singleton (hnot sp)]
  dsimp only
  rw [hdrop, hdrop]
  rfl

theorem mark_entryLine (pc sp : BitVec 32) : mark (entryLine pc sp) = .entry ⟨pc.toNat, sp.toNat⟩ := by
  have htext : entryLine pc sp = pkbtracePref ++ ("0x".toList ++ format08x pc ++ ':' :: ("0x".toList ++ format08x sp)) := by
    simp [entryLine]
  rw [mark, htext, if_pos (List.prefix_append _ _), List.drop_left]
  dsimp only
  rw [rawEntry_format08x, if_neg, if_neg]
  · intro hstart
    cases List.head_eq_of_cons_eq hstart
  · intro hend
    cases List.head_eq_of_cons_eq hend

theorem eq_of_mark_finish {text : List Char} (h : mark text = .finish) : text = pkbtracePref ++ "END".toList := by
  rw [mark] at h
  dsimp only at h
  split at h
  · next hpref =>
    obtain ⟨rest, rfl⟩ := hpref
    rw [List.drop_left] at h
    split at h
    · next hend => rw [hend]
    · split at h
      · cases h
      · split at h
        · cases h
        · cases h
  · split at h
    · split at h
      · cases h
      · cases h
    · cases h

/-! ### Entries and backtraces -/

theorem entries_close (finished : Bool) (es : List TraceRawEntry) : (close finished es).flatMap Backtrace.entries = es := by
  rw [close]
  split
  · next hnil => exact hnil.symm
  · exact List.append_nil _

theorem Mark.entries_next (es : List TraceRawEntry) (m : Mark) :
    (m.next es).1.flatMap Backtrace.entries ++ (m.next es).2 = es ++ m.raw?.toList := by
  cases m with
  | entry e => rfl
  | finish => simpa [Mark.next, Mark.raw?] using entries_close true es
  | start | panic => simpa [Mark.next, Mark.raw?] using entries_close false es
  | unreadable | ordinary => simp [Mark.next, Mark.raw?]

private theorem entries_backtraces (es : List TraceRawEntry) (ms : List Mark) :
    (backtraces es ms).flatMap Backtrace.entries = es ++ ms.filterMap Mark.raw? := by
  induction ms generalizing es with
  | nil => simpa [backtraces] using entries_close false es
  | cons m ms ih =>
    rw [backtraces, List.flatMap_append, ih, ← List.append_assoc, m.entries_next, List.append_assoc]
    cases m <;> rfl

/-- What lines print and what they leave. -/
def scan : List TraceRawEntry → List Mark → List Backtrace × List TraceRawEntry
  | es, [] => ([], es)
  | es, m :: ms => ((m.next es).1 ++ (scan (m.next es).2 ms).1, (scan (m.next es).2 ms).2)

private theorem backtraces_append (es : List TraceRawEntry) (ms ns : List Mark) :
    backtraces es (ms ++ ns) = (scan es ms).1 ++ backtraces (scan es ms).2 ns := by
  induction ms generalizing es with
  | nil => rfl
  | cons m ms ih => rw [List.cons_append, backtraces, ih, scan, List.append_assoc]

theorem scan_append (es : List TraceRawEntry) (ms ns : List Mark) :
    (scan es (ms ++ ns)).1 = (scan es ms).1 ++ (scan (scan es ms).2 ns).1 := by
  induction ms generalizing es with
  | nil => rfl
  | cons m ms ih => rw [List.cons_append, scan, ih, scan, List.append_assoc]

theorem close_eq_nil_iff {finished : Bool} {es : List TraceRawEntry} : close finished es = [] ↔ es = [] := by
  rw [close]
  by_cases h : es = [] <;> simp [h]

private theorem not_closes_entry {e : TraceRawEntry} : ¬ (Mark.entry e).Closes := by
  rintro (h | h | h) <;> cases h

/-- Entries are left where none of the lines after them closes a backtrace. -/
theorem scan_eq_nil_iff (es : List TraceRawEntry) (ls : List (List Char)) : (scan es (ls.map mark)).2 = [] ↔
    (es = [] ∨ ∃ u ∈ ls, (mark u).Closes) ∧ ∀ l after e, l :: after <:+ ls → mark l = .entry e → ∃ u ∈ after, (mark u).Closes := by
  induction ls generalizing es with
  | nil => simp [scan]
  | cons l ls ih =>
    have hsuffix : (∀ l' after e, l' :: after <:+ l :: ls → mark l' = .entry e → ∃ u ∈ after, (mark u).Closes) ↔
        (∀ e, mark l = .entry e → ∃ u ∈ ls, (mark u).Closes) ∧
          ∀ l' after e, l' :: after <:+ ls → mark l' = .entry e → ∃ u ∈ after, (mark u).Closes := by
      constructor
      · intro h
        exact ⟨fun e => h l ls e (List.suffix_refl _), fun l' after e hs => h l' after e (List.suffix_cons_iff.2 (.inr hs))⟩
      · rintro ⟨hfirst, hrest⟩ l' after e hs
        rcases List.suffix_cons_iff.1 hs with heq | hs
        · cases heq
          exact hfirst e
        · exact hrest l' after e hs
    rw [List.map_cons, scan, ih, hsuffix, List.exists_mem_cons_iff]
    cases hm : mark l with
    | entry e =>
      simp only [Mark.next, List.append_ne_nil_of_right_ne_nil _ (List.cons_ne_nil e []), false_or, not_closes_entry]
      constructor
      · rintro ⟨hcloses, hrest⟩
        exact ⟨.inr hcloses, fun _ _ => hcloses, hrest⟩
      · rintro ⟨-, hcloses, hrest⟩
        exact ⟨hcloses e rfl, hrest⟩
    | finish => simp [Mark.next, Mark.Closes]
    | start | panic => simp [Mark.next, Mark.Closes, Mark.Cuts]
    | unreadable | ordinary => simp [Mark.next, Mark.Closes, Mark.Cuts]

namespace Btrace

variable {addr2line : List Char → List Char} {s s' : Btrace}

theorem Handles.next {text : List Char} {m : Mark} (h : Handles s text m (.ok s')) :
    m ≠ .unreadable ∧ s'.pkbtraceRawEnts = (m.next s.pkbtraceRawEnts).2 ∧
      s'.backtraces = s.backtraces ++ (m.next s.pkbtraceRawEnts).1 := by
  cases h with
  | entry e => exact ⟨Mark.noConfusion, rfl, (List.append_nil _).symm⟩
  | closes hm hpending hbacktraces =>
    rw [hpending, hbacktraces]
    rcases hm with rfl | rfl | rfl
    · exact ⟨Mark.noConfusion, rfl, rfl⟩
    · exact ⟨Mark.noConfusion, rfl, rfl⟩
    · exact ⟨Mark.noConfusion, rfl, rfl⟩
  | ordinary => exact ⟨Mark.noConfusion, rfl, by simp [backtraces, List.filterMap_cons, Printed.backtrace?, Mark.next]⟩

theorem Handles.exists_ok {text : List Char} {m : Mark} {r : Except Btrace Btrace} (h : Handles s text m r)
    (hm : m ≠ .unreadable) : ∃ s', r = .ok s' := by
  cases h with
  | unreadable => exact absurd rfl hm
  | entry | closes | ordinary => exact ⟨_, rfl⟩

/-- The lines are all read if and only if the script can read each of them. -/
theorem foldlM_onLine (h : TwoLines addr2line) (s : Btrace) (ls : List (List Char)) :
    (∃ s', ls.foldlM (onLine addr2line) s = .ok s') ↔ ∀ l ∈ ls, mark l.dropLast ≠ .unreadable := by
  induction ls generalizing s with
  | nil => exact iff_of_true ⟨s, rfl⟩ nofun
  | cons l ls ih =>
    have hline := onLine_handles h s l
    rw [List.foldlM_cons, List.forall_mem_cons]
    cases hl : onLine addr2line s l with
    | error s₁ =>
      rw [hl] at hline
      refine iff_of_false (fun ⟨_, hrun⟩ => nomatch hrun) fun hread => ?_
      obtain ⟨_, hok⟩ := hline.exists_ok hread.1
      cases hok
    | ok s₁ =>
      rw [hl] at hline
      exact (ih s₁).trans (and_iff_right hline.next.1).symm

theorem backtraces_foldlM (h : TwoLines addr2line) {ls : List (List Char)} (hrun : ls.foldlM (onLine addr2line) s = .ok s') :
    s'.backtraces = s.backtraces ++ (scan s.pkbtraceRawEnts ((ls.map List.dropLast).map mark)).1 := by
  induction ls generalizing s with
  | nil =>
    cases hrun
    exact (List.append_nil _).symm
  | cons l ls ih =>
    have hline := onLine_handles h s l
    rw [List.foldlM_cons] at hrun
    cases hl : onLine addr2line s l with
    | error s₁ =>
      rw [hl] at hrun
      cases hrun
    | ok s₁ =>
      rw [hl] at hline hrun
      obtain ⟨-, hpending, hbacktraces⟩ := hline.next
      rw [ih hrun, hpending, hbacktraces, List.map_cons, List.map_cons, scan, List.append_assoc]

end Btrace

theorem Mark.next_eq_close_iff (es : List TraceRawEntry) (m : Mark) : (m.next es).1 = close false es ↔ es = [] ∨ m.Cuts := by
  have hnil : [] = close false es ↔ es = [] := eq_comm.trans close_eq_nil_iff
  cases m with
  | entry e => simpa [Mark.next, Mark.Cuts] using hnil
  | finish => by_cases hes : es = [] <;> simp [Mark.next, Mark.Cuts, close, hes]
  | start | panic => simp [Mark.next, Mark.Cuts]
  | unreadable | ordinary => simpa [Mark.next, Mark.Cuts] using hnil

theorem Mark.entries_next_ne (es : List TraceRawEntry) (e : TraceRawEntry) (m : Mark) : (m.next es).1 ≠ close false (es ++ [e]) := by
  intro heq
  have hentries := m.entries_next es
  rw [heq, entries_close, List.append_assoc] at hentries
  cases m with
  | entry e' => exact absurd heq.symm (close_eq_nil_iff.not.2 (by simp))
  | finish | start | panic | unreadable | ordinary => simp [Mark.raw?] at hentries

/-- What the last line prints where it has no line feed, and what it should: it is taken without its last character. -/
theorem scan_lastLine_iff {es : List TraceRawEntry} {c : List Char} (hread : c ≠ [] → mark c.dropLast ≠ .unreadable) :
    (scan es ((if c = [] then [] else [c.dropLast]).map mark)).1 = backtraces es ((if c = [] then [] else [c]).map mark) ↔
      (es = [] ∨ (mark c.dropLast).Cuts) ∧ (mark c).raw? = none := by
  by_cases hc : c = []
  · subst hc
    have hmark : mark [] = .ordinary := by decide
    simp only [if_true, List.map_nil, scan, backtraces, List.dropLast_nil, hmark]
    exact (Mark.ordinary.next_eq_close_iff es).trans (and_iff_left rfl).symm
  · rw [if_neg hc, if_neg hc, List.map_singleton, List.map_singleton, scan, scan, backtraces, backtraces, List.append_nil]
    cases hm : mark c with
    | entry e =>
      refine iff_of_false ?_ fun hnone => nomatch hnone.2
      exact Mark.entries_next_ne es e _
    | finish =>
      rw [eq_of_mark_finish hm] at hread
      exact absurd (by decide) (hread (by decide))
    | start | panic =>
      refine Iff.trans ?_ (and_iff_left rfl).symm
      rw [← Mark.next_eq_close_iff]
      exact iff_of_eq (congrArg _ (List.append_nil _))
    | unreadable | ordinary =>
      refine Iff.trans ?_ (and_iff_left rfl).symm
      exact Mark.next_eq_close_iff es _

/-- Every entry line has a closing line after it. -/
def Closed (input : List Char) : Prop :=
  ∀ l after e, l :: after <:+ fullLines input → mark l = .entry e → ∃ u ∈ after, (mark u).Closes

variable {addr2line : List Char → List Char} {input : List Char}

/-- The script has printed the backtraces of its input, if it has read all of it. -/
theorem backtraces_main_iff (h : TwoLines addr2line) {s : Btrace} (hmain : Btrace.main addr2line input = .ok s)
    (hread : ∀ l ∈ readLines input, mark l.dropLast ≠ .unreadable) :
    s.backtraces = backtraces [] ((allLines input).map mark) ↔
      (Closed input ∨ (mark (lastLine input).dropLast).Cuts) ∧ (mark (lastLine input)).raw? = none := by
  have hlast : lastLine input ≠ [] → mark (lastLine input).dropLast ≠ .unreadable := by
    intro hne
    refine hread _ ?_
    rw [readLines, if_neg hne]
    exact List.mem_append_right _ (List.mem_singleton_self _)
  have hscan : s.backtraces = (scan [] (((readLines input).map List.dropLast).map mark)).1 :=
    Btrace.backtraces_foldlM h hmain
  have hleft := scan_eq_nil_iff [] (fullLines input)
  rw [and_iff_right (.inl rfl)] at hleft
  rw [map_dropLast_readLines, List.map_append, scan_append] at hscan
  rw [hscan, allLines, List.map_append, backtraces_append, Closed, ← hleft, ← scan_lastLine_iff hlast]
  exact List.append_right_inj _

private theorem entries_of_backtraces {s : Btrace} (h : s.backtraces = backtraces [] ((allLines input).map mark)) :
    s.backtraces.flatMap Backtrace.entries = (allLines input).filterMap fun l => (mark l).raw? := by
  rw [h, entries_backtraces, List.nil_append, List.filterMap_map]
  rfl

theorem flushed_iff : Flushed input ↔ (∀ l ∈ readLines input, mark l.dropLast ≠ .unreadable) ∧
    (Closed input ∨ (mark (lastLine input).dropLast).Cuts) ∧ (mark (lastLine input)).raw? = none := by
  constructor
  · rintro ⟨hread, hclosed, hlast⟩
    refine ⟨hread, ?_, hlast⟩
    by_cases hcuts : (mark (lastLine input).dropLast).Cuts
    · exact .inr hcuts
    · exact .inl fun l after e hl hm => (hclosed l after e hl hm).resolve_right hcuts
  · rintro ⟨hread, hclosed, hlast⟩
    exact ⟨hread, fun l after e hl hm => hclosed.imp_left fun hall => hall l after e hl hm, hlast⟩

theorem conserves_iff : Conserves addr2line input ↔ ∃ s, Btrace.main addr2line input = .ok s ∧
    s.backtraces = backtraces [] ((allLines input).map mark) := by
  constructor
  · rintro ⟨⟨s, hmain⟩, -, hfinished⟩
    rw [hmain] at hfinished
    exact ⟨s, hmain, hfinished⟩
  · rintro ⟨s, hmain, hfinished⟩
    refine ⟨⟨s, hmain⟩, ?_, ?_⟩
    · rw [hmain]
      exact entries_of_backtraces hfinished
    · rw [hmain]
      exact hfinished

/-- **Where `addr2line` prints two lines for each address: a complete entry line is read with its addresses, and the script conserves the entries of its input if and only if it can read every line and none of the entries is left when the input ends.** -/
theorem btrace_conserves_iff {addr2line : List Char → List Char} (h : TwoLines addr2line) (input : List Char) :
    (∀ pc sp, mark (entryLine pc sp) = .entry ⟨pc.toNat, sp.toNat⟩) ∧ (Conserves addr2line input ↔ Flushed input) := by
  refine ⟨mark_entryLine, ?_⟩
  have hreads := Btrace.foldlM_onLine h .start (readLines input)
  rw [flushed_iff, conserves_iff, ← hreads]
  constructor
  · rintro ⟨s, hmain, hfinished⟩
    exact ⟨⟨s, hmain⟩, (backtraces_main_iff h hmain (hreads.1 ⟨s, hmain⟩)).1 hfinished⟩
  · rintro ⟨⟨s, hmain⟩, hclosed⟩
    exact ⟨s, hmain, (backtraces_main_iff h hmain (hreads.1 ⟨s, hmain⟩)).2 hclosed⟩

/-! ### Two inputs -/

/-- A backtrace that the next one cuts, behind another line. -/
def twoBacktraces : List Char :=
  "a\nPKBTRACE START\nPKBTRACE 0x1:0x2\nPKBTRACE START\nPKBTRACE 0x3:0x4\nPKBTRACE END\n".toList

theorem btrace_conserves_iff_twoBacktraces : Conserves unknownAddresses twoBacktraces ∧
    (Btrace.ended (Btrace.main unknownAddresses twoBacktraces)).backtraces =
      [⟨false, [⟨0x1, 0x2⟩]⟩, ⟨true, [⟨0x3, 0x4⟩]⟩] := by
  have hscan : (scan [] ((fullLines twoBacktraces).map mark)).2 = [] := by decide +kernel
  have hread : ∀ l ∈ readLines twoBacktraces, mark l.dropLast ≠ .unreadable := by decide +kernel
  have hlast : (mark (lastLine twoBacktraces)).raw? = none := by decide +kernel
  refine ⟨(btrace_conserves_iff unknownAddresses_twoLines twoBacktraces).2.2 ⟨hread, ?_, hlast⟩, by decide +kernel⟩
  exact fun l after e hl hm => .inl (((scan_eq_nil_iff [] _).1 hscan).2 l after e hl hm)

/-- The board crashes in the middle of a backtrace, and the log ends. -/
def crashed : List Char := "PKBTRACE START\nPKBTRACE 0x400d494c:0x3ffb2260\n".toList

theorem not_btrace_conserves : ¬ ∀ addr2line input, TwoLines addr2line → Conserves addr2line input := by
  intro h
  have hentries := (h unknownAddresses crashed unknownAddresses_twoLines).entries
  revert hentries
  decide +kernel

end Vedruino.Log
