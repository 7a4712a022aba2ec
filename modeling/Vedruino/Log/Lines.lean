import Vedruino.Log.Btrace

/-!
# The lines of the log

The lines that belong to no backtrace are copied. The loop cuts the last character off each line for its line feed, and where it prints the line it cuts one more off, which is the carriage return only of a line that has one.
-/

namespace Vedruino.Log

/-- Neither an entry line nor a panic line. -/
def Ordinary (text : List Char) : Prop := ¬ pkbtracePref <+: text ∧ ¬ panicPref <+: text

instance : DecidablePred Ordinary := fun text => inferInstanceAs (Decidable (¬ pkbtracePref <+: text ∧ ¬ panicPref <+: text))

/-- What a line says. It has no line feed any more, and a carriage return before that belongs to the line ending. -/
def content (text : List Char) : List Char := if text.getLast? = some '\r' then text.dropLast else text

/-- What the ordinary lines say; a last line without a line feed has no line ending. -/
def ordinaryLines (input : List Char) : List (List Char) :=
  ((fullLines input).filter (Ordinary ·)).map content ++
    if lastLine input ≠ [] ∧ Ordinary (lastLine input) then [lastLine input] else []

/-- Without the backtraces the output is the ordinary lines. -/
def Transparent (addr2line : List Char → List Char) (input : List Char) : Prop :=
  (Btrace.ended (Btrace.main addr2line input)).lines = ordinaryLines input

/-- The inputs whose ordinary lines the script copies. -/
structure Passes (input : List Char) : Prop where
  endings : ∀ t ∈ fullLines input, Ordinary t → t = [] ∨ t.getLast? = some '\r'
  /-- The script has not ended before an ordinary line. -/
  readable : (fullLines input).Pairwise fun t u => mark t = .unreadable → ¬ Ordinary u
  last : lastLine input ≠ [] → ¬ Ordinary (lastLine input)
  /-- Without its last character a prefix alone is an ordinary line. -/
  prefixes : lastLine input = pkbtracePref ∨ lastLine input = panicPref → ∃ t ∈ fullLines input, mark t = .unreadable

theorem mark_eq_ordinary_iff {text : List Char} : mark text = .ordinary ↔ Ordinary text := by
  rw [mark, Ordinary]
  by_cases hpkbtrace : pkbtracePref <+: text
  · rw [if_pos hpkbtrace]
    refine iff_of_false ?_ fun h => h.1 hpkbtrace
    dsimp only
    split
    · exact Mark.noConfusion
    · split
      · exact Mark.noConfusion
      · split
        · exact Mark.noConfusion
        · exact Mark.noConfusion
  · rw [if_neg hpkbtrace]
    by_cases hpanic : panicPref <+: text
    · rw [if_pos hpanic]
      refine iff_of_false ?_ fun h => h.2 hpanic
      split
      · exact Mark.noConfusion
      · exact Mark.noConfusion
    · rw [if_neg hpanic]
      exact iff_of_true rfl ⟨hpkbtrace, hpanic⟩

theorem dropLast_eq_content_iff {text : List Char} :
    text.dropLast = content text ↔ text = [] ∨ text.getLast? = some '\r' := by
  rw [content]
  by_cases hcr : text.getLast? = some '\r'
  · rw [if_pos hcr]
    exact iff_of_true rfl (.inr hcr)
  · rw [if_neg hcr, or_iff_left hcr]
    constructor
    · intro h
      by_contra hne
      have hlen := congrArg List.length h
      rw [List.length_dropLast] at hlen
      have hpos := List.length_pos_iff.2 hne
      omega
    · rintro rfl
      rfl

/-- A prefix is no line of a backtrace without its blank. -/
theorem ordinary_prefix {text : List Char} (h : text = pkbtracePref ∨ text = panicPref) : Ordinary text.dropLast := by
  rcases h with rfl | rfl
  · decide
  · decide

theorem ordinary_dropLast_iff {text : List Char} (h : text ≠ []) :
    Ordinary text.dropLast ↔ Ordinary text ∨ text = pkbtracePref ∨ text = panicPref := by
  obtain ⟨init, c, rfl⟩ := List.eq_nil_or_concat text |>.resolve_left h
  rw [List.concat_eq_append, List.dropLast_concat]
  constructor
  · intro hinit
    by_cases hpkbtrace : init ++ [c] = pkbtracePref
    · exact .inr (.inl hpkbtrace)
    · by_cases hpanic : init ++ [c] = panicPref
      · exact .inr (.inr hpanic)
      · refine .inl ⟨fun hpref => ?_, fun hpref => ?_⟩
        · exact hinit.1 ((List.prefix_concat_iff.1 hpref).resolve_left (Ne.symm hpkbtrace))
        · exact hinit.2 ((List.prefix_concat_iff.1 hpref).resolve_left (Ne.symm hpanic))
  · rintro (hall | hpref)
    · exact ⟨fun hpref => hall.1 (hpref.trans (List.prefix_append _ _)), fun hpref => hall.2 (hpref.trans (List.prefix_append _ _))⟩
    · have hcut := ordinary_prefix hpref
      rwa [List.dropLast_concat] at hcut

/-! ### What is printed -/

/-- What these lines print as lines. A line that the script cannot read ends it. -/
def shown : List (List Char) → List (List Char)
  | [] => []
  | t :: ts => if mark t = .unreadable then [] else if mark t = .ordinary then t.dropLast :: shown ts else shown ts

theorem Btrace.lines_foldlM {addr2line : List Char → List Char} (h : TwoLines addr2line) (s : Btrace) (ls : List (List Char)) :
    (ended (ls.foldlM (onLine addr2line) s)).lines = s.lines ++ shown (ls.map List.dropLast) := by
  induction ls generalizing s with
  | nil => exact (List.append_nil _).symm
  | cons l ls ih =>
    have hline := onLine_handles h s l
    rw [List.foldlM_cons, List.map_cons, shown]
    generalize onLine addr2line s l = r at hline
    generalize mark l.dropLast = m at hline
    cases hline with
    | entry e => exact ih _
    | closes hm _ _ hlines =>
      refine (ih _).trans ?_
      rw [hlines]
      rcases hm with rfl | rfl | rfl
      · rfl
      · rfl
      · rfl
    | ordinary =>
      refine (ih _).trans ?_
      simp [lines, Printed.line?]
    | unreadable hlines => exact hlines.trans (List.append_nil _).symm

/-- What lines before the last one show; `us` come after them, and `vs` is what these should show. -/
theorem shown_append_eq_iff (ts us vs : List (List Char)) :
    shown (ts ++ us) = (ts.filter (Ordinary ·)).map content ++ vs ↔
      (∀ t ∈ ts, Ordinary t → t = [] ∨ t.getLast? = some '\r') ∧
      ts.Pairwise (fun t u => mark t = .unreadable → ¬ Ordinary u) ∧
      if ∃ t ∈ ts, mark t = .unreadable then vs = [] else shown us = vs := by
  induction ts with
  | nil => simp
  | cons t ts ih =>
    rw [List.cons_append, shown, List.forall_mem_cons, List.pairwise_cons]
    by_cases hm : mark t = .unreadable
    · have hnot : ¬ Ordinary t := fun h => nomatch hm.symm.trans (mark_eq_ordinary_iff.2 h)
      rw [if_pos hm, List.filter_cons_of_neg (by simpa using hnot), if_pos ⟨t, List.mem_cons_self .., hm⟩]
      constructor
      · intro hnil
        obtain ⟨hts, hvs⟩ := List.append_eq_nil_iff.1 hnil.symm
        have hnone : ∀ u ∈ ts, ¬ Ordinary u := by
          simpa [List.filter_eq_nil_iff] using hts
        refine ⟨⟨fun h => absurd h hnot, fun u hu h => absurd h (hnone u hu)⟩, ⟨fun u hu _ => hnone u hu, ?_⟩, hvs⟩
        exact List.pairwise_of_forall_mem_list fun _ _ u hu _ => hnone u hu
      · rintro ⟨-, ⟨hnone, -⟩, rfl⟩
        have hfilter : ts.filter (Ordinary ·) = [] := List.filter_eq_nil_iff.2 fun u hu => by simpa using hnone u hu hm
        rw [hfilter]
        rfl
    · have hnone : ∀ u ∈ ts, mark t = .unreadable → ¬ Ordinary u := fun _ _ h => absurd h hm
      have hexists : (∃ u ∈ t :: ts, mark u = .unreadable) ↔ ∃ u ∈ ts, mark u = .unreadable := by
        rw [List.exists_mem_cons_iff, or_iff_right hm]
      rw [if_neg hm, and_iff_right hnone, if_congr hexists rfl rfl]
      by_cases hordinary : Ordinary t
      · rw [if_pos (mark_eq_ordinary_iff.2 hordinary), List.filter_cons_of_pos (by simpa using hordinary), List.map_cons, List.cons_append,
          List.cons.injEq, ih, dropLast_eq_content_iff, forall_prop_of_true hordinary, and_assoc]
      · have hhead : Ordinary t → t = [] ∨ t.getLast? = some '\r' := fun h => absurd h hordinary
        rw [if_neg (mark_eq_ordinary_iff.not.2 hordinary), List.filter_cons_of_neg (by simpa using hordinary), ih,
          and_iff_right hhead]

/-- The last line, where every line before it could be read: what is shown of it is without its last two characters. -/
theorem shown_lastLine_iff (c : List Char) :
    shown (if c = [] then [] else [c.dropLast]) = (if c ≠ [] ∧ Ordinary c then [c] else []) ↔
      (c ≠ [] → ¬ Ordinary c) ∧ ¬ (c = pkbtracePref ∨ c = panicPref) := by
  by_cases hc : c = []
  · subst hc
    refine iff_of_true rfl ⟨fun h => absurd rfl h, ?_⟩
    decide
  · have hcut := ordinary_dropLast_iff hc
    rw [if_neg hc, forall_prop_of_true hc, ← not_or, ← hcut]
    by_cases hordinary : Ordinary c.dropLast
    · refine iff_of_false ?_ (not_not.2 hordinary)
      rw [shown, mark_eq_ordinary_iff.2 hordinary, if_neg Mark.noConfusion, if_pos rfl]
      split
      · intro heq
        have hlen := congrArg List.length (List.cons.inj heq).1
        rw [List.length_dropLast, List.length_dropLast] at hlen
        have hpos := List.length_pos_iff.2 hc
        omega
      · exact List.cons_ne_nil _ _
    · have hnot : ¬ Ordinary c := fun h => hordinary (hcut.2 (.inl h))
      rw [if_neg (fun h => hnot h.2), shown, if_neg (mark_eq_ordinary_iff.not.2 hordinary)]
      exact iff_of_true (ite_self _) hordinary

/-- **Where `addr2line` prints two lines for each address, the output without the backtraces is the ordinary lines of the input if and only if each of them ends with CR LF or is empty and ends with LF, none comes after a line that the script cannot read, and no prefix alone ends the input before such a line.** -/
theorem btrace_transparent_iff {addr2line : List Char → List Char} (h : TwoLines addr2line) (input : List Char) :
    Transparent addr2line input ↔ Passes input := by
  have hlines : (Btrace.ended (Btrace.main addr2line input)).lines = shown ((readLines input).map List.dropLast) :=
    Btrace.lines_foldlM h .start (readLines input)
  rw [Transparent, hlines, map_dropLast_readLines, ordinaryLines, shown_append_eq_iff]
  split
  · next hunreadable =>
    constructor
    · rintro ⟨hendings, hreadable, hlast⟩
      refine ⟨hendings, hreadable, fun hne hordinary => ?_, fun _ => hunreadable⟩
      rw [if_pos ⟨hne, hordinary⟩] at hlast
      cases hlast
    · rintro ⟨hendings, hreadable, hlast, -⟩
      exact ⟨hendings, hreadable, if_neg fun h => hlast h.1 h.2⟩
  · next hunreadable =>
    rw [shown_lastLine_iff]
    constructor
    · rintro ⟨hendings, hreadable, hlast, hprefixes⟩
      exact ⟨hendings, hreadable, hlast, fun hpref => absurd hpref hprefixes⟩
    · rintro ⟨hendings, hreadable, hlast, hprefixes⟩
      exact ⟨hendings, hreadable, hlast, fun hpref => hunreadable (hprefixes hpref)⟩

/-- Lines with carriage returns around a backtrace. -/
def backtraceBetween : List Char := "a\r\n\nPKBTRACE 0x1:0x2\nPKBTRACE END\nb\r\n".toList

theorem btrace_transparent_iff_backtraceBetween :
    (Btrace.ended (Btrace.main unknownAddresses backtraceBetween)).lines = [['a'], [], ['b']] := by
  have hpasses : Passes backtraceBetween := {
    endings := by decide +kernel
    readable := by decide +kernel
    last := by decide +kernel
    prefixes := by decide +kernel }
  have htransparent := (btrace_transparent_iff unknownAddresses_twoLines backtraceBetween).2 hpasses
  exact htransparent.trans (by decide +kernel)

/-- Lines that end with LF alone lose their last character. -/
theorem not_btrace_transparent : ¬ ∀ addr2line input, TwoLines addr2line → Transparent addr2line input := by
  intro h
  have hlines := h unknownAddresses "hello\n".toList unknownAddresses_twoLines
  revert hlines
  rw [Transparent]
  decide +kernel

end Vedruino.Log
