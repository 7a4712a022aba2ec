import Vedruino.Lib.CSource
import Vedruino.Log.Walk

/-!
# Colours in the log

The log macros put escape sequences around the parts of a line, and `deesc.py` removes escape sequences from a text. A sequence consists of printable characters behind its first one, so none begins in one part of a line and ends behind the next escape or line feed.
-/

namespace Vedruino.Log

/-! ### `deesc.py` -/

def esc : Char := Char.ofNat 0x1b

/-- `[@-Z\\-_]` -/
def isFe (c : Char) : Bool := ('@' ≤ c && c ≤ 'Z') || ('\\' ≤ c && c ≤ '_')

def isParameter (c : Char) : Bool := '0' ≤ c && c ≤ '?'

def isIntermediate (c : Char) : Bool := ' ' ≤ c && c ≤ '/'

def isFinal (c : Char) : Bool := '@' ≤ c && c ≤ '~'

/-- What follows the parameters and the intermediate characters. -/
def csiTail (cs : List Char) : List Char := (cs.dropWhile isParameter).dropWhile isIntermediate

def afterFinal : List Char → Option (List Char)
  | [] => none
  | c :: cs => if isFinal c then some cs else none

/-- What follows a match of `ansi_escape`, from behind its first character. -/
def matchEscape : List Char → Option (List Char)
  | [] => none
  | c :: cs => if isFe c then some cs else if c = '[' then afterFinal (csiTail cs) else none

theorem afterFinal_eq_some {cs rest : List Char} (h : afterFinal cs = some rest) : ∃ c, cs = c :: rest ∧ isFinal c = true := by
  cases cs with
  | nil => cases h
  | cons c cs =>
    rw [afterFinal, Option.ite_none_right_eq_some] at h
    obtain ⟨hc, heq⟩ := h
    cases heq
    exact ⟨c, rfl, hc⟩

private theorem csiTail_suffix (cs : List Char) : csiTail cs <:+ cs :=
  (List.dropWhile_suffix isIntermediate).trans (List.dropWhile_suffix isParameter)

theorem suffix_of_matchEscape {cs rest : List Char} (h : matchEscape cs = some rest) : ∃ c, c :: rest <:+ cs := by
  cases cs with
  | nil => cases h
  | cons c cs =>
    rw [matchEscape] at h
    split at h
    · cases h
      exact ⟨c, List.suffix_rfl⟩
    · split at h
      · obtain ⟨d, heq, -⟩ := afterFinal_eq_some h
        exact ⟨d, (heq ▸ csiTail_suffix cs).trans (List.suffix_cons _ _)⟩
      · cases h

theorem length_matchEscape {cs rest : List Char} (h : matchEscape cs = some rest) : rest.length < cs.length := by
  obtain ⟨c, hc⟩ := suffix_of_matchEscape h
  exact hc.length_le

/-- `ansi_escape.sub` with nothing. -/
def ansiEscapeSub : List Char → List Char
  | [] => []
  | c :: cs =>
    if c = esc then
      match _h : matchEscape cs with
      | some rest => ansiEscapeSub rest
      | none => c :: ansiEscapeSub cs
    else c :: ansiEscapeSub cs
termination_by cs => cs.length
decreasing_by
  · have hlt := length_matchEscape _h
    rw [List.length_cons]
    omega
  · exact Nat.lt_succ_self _
  · exact Nat.lt_succ_self _

/-- What the script prints. -/
def deesc (input : List Char) : List Char := (readLines input).flatMap ansiEscapeSub

theorem sub_match {cs rest : List Char} (h : matchEscape cs = some rest) : ansiEscapeSub (esc :: cs) = ansiEscapeSub rest := by
  rw [ansiEscapeSub, if_pos rfl]
  split
  next rest' hsome =>
    cases h.symm.trans hsome
    rfl
  next hnone => cases h.symm.trans hnone

theorem sub_noMatch {cs : List Char} (h : matchEscape cs = none) : ansiEscapeSub (esc :: cs) = esc :: ansiEscapeSub cs := by
  rw [ansiEscapeSub, if_pos rfl]
  split
  next rest' hsome => cases h.symm.trans hsome
  next hnone => rfl

theorem sub_cons {c : Char} (h : c ≠ esc) (cs : List Char) : ansiEscapeSub (c :: cs) = c :: ansiEscapeSub cs := by
  rw [ansiEscapeSub, if_neg h]

theorem sub_append_of_not_mem {as : List Char} (h : esc ∉ as) (bs : List Char) : ansiEscapeSub (as ++ bs) = as ++ ansiEscapeSub bs := by
  induction as with
  | nil => rfl
  | cons a as ih =>
    rw [List.mem_cons, not_or] at h
    rw [List.cons_append, sub_cons (Ne.symm h.1), ih h.2]
    rfl

/-- A text that a match may not begin in and end behind. -/
def Separate (as bs : List Char) : Prop := ∀ s, esc :: s <:+ as → matchEscape s = none → matchEscape (s ++ bs) = none

private theorem csiTail_append {as : List Char} (h : csiTail as ≠ []) (bs : List Char) : csiTail (as ++ bs) = csiTail as ++ bs := by
  have happend : ∀ (p : Char → Bool) {as : List Char}, as.dropWhile p ≠ [] → (as ++ bs).dropWhile p = as.dropWhile p ++ bs := by
    intro p as hne
    rw [List.dropWhile_append, if_neg]
    rwa [List.isEmpty_iff]
  have hparameters : as.dropWhile isParameter ≠ [] := by
    intro hnil
    rw [csiTail, hnil] at h
    exact h rfl
  rw [csiTail, happend isParameter hparameters]
  exact happend isIntermediate h

/-- A match ends where it ends, whatever follows. -/
theorem matchEscape_append {cs rest : List Char} (h : matchEscape cs = some rest) (bs : List Char) :
    matchEscape (cs ++ bs) = some (rest ++ bs) := by
  cases cs with
  | nil => cases h
  | cons c cs =>
    rw [matchEscape] at h
    rw [List.cons_append, matchEscape]
    split at h
    next hfe =>
      cases h
      exact if_pos hfe
    next hfe =>
      rw [if_neg hfe]
      split at h
      next hcsi =>
        obtain ⟨d, heq, hfinal⟩ := afterFinal_eq_some h
        have hne : csiTail cs ≠ [] := by
          rw [heq]
          exact List.cons_ne_nil _ _
        rw [if_pos hcsi, csiTail_append hne, heq]
        exact if_pos hfinal
      next => cases h

theorem sub_append {as bs : List Char} (h : Separate as bs) : ansiEscapeSub (as ++ bs) = ansiEscapeSub as ++ ansiEscapeSub bs := by
  induction hn : as.length using Nat.strongRecOn generalizing as with
  | ind n ih =>
    cases as with
    | nil =>
      rw [ansiEscapeSub]
      rfl
    | cons a as =>
      rw [List.length_cons] at hn
      by_cases ha : a = esc
      · subst ha
        cases hmatch : matchEscape as with
        | none =>
          have htail : Separate as bs := fun s hs => h s (hs.trans (List.suffix_cons _ _))
          rw [List.cons_append, sub_noMatch (h as List.suffix_rfl hmatch), sub_noMatch hmatch, ih as.length (by omega) htail rfl]
          rfl
        | some rest =>
          have hlt := length_matchEscape hmatch
          obtain ⟨c, hsuffix⟩ := suffix_of_matchEscape hmatch
          have htail : Separate rest bs := fun s hs =>
            h s (((hs.trans (List.suffix_cons _ _)).trans hsuffix).trans (List.suffix_cons _ _))
          rw [List.cons_append, sub_match (matchEscape_append hmatch bs), sub_match hmatch, ih rest.length (by omega) htail rfl]
      · have htail : Separate as bs := fun s hs => h s (hs.trans (List.suffix_cons _ _))
        rw [List.cons_append, sub_cons ha, sub_cons ha, ih as.length (by omega) htail rfl]
        rfl

/-- The character ends the parameters and the intermediate characters. -/
def Stops (c : Char) : Prop := isParameter c = false ∧ isIntermediate c = false

theorem csiTail_stop {c : Char} (hc : Stops c) (as bs : List Char) : csiTail (as ++ c :: bs) = csiTail as ++ c :: bs := by
  have hstop : ∀ (p : Char → Bool) (as : List Char), p c = false → (as ++ c :: bs).dropWhile p = as.dropWhile p ++ c :: bs := by
    intro p as hp
    have hhead : (c :: bs).dropWhile p = c :: bs := List.dropWhile_cons_of_neg (by rw [hp]; exact Bool.false_ne_true)
    rw [List.dropWhile_append]
    split
    next hnil => rw [hhead, List.isEmpty_iff.1 hnil, List.nil_append]
    next => rfl
  rw [csiTail, hstop isParameter as hc.1, hstop isIntermediate _ hc.2]
  rfl

/-- The character is in none of the classes of the expression. -/
structure Control (c : Char) : Prop where
  fe : isFe c = false
  csi : c ≠ '['
  stops : Stops c
  final : isFinal c = false

private theorem control_esc : Control esc := ⟨by decide, by decide, ⟨by decide, by decide⟩, by decide⟩

theorem control_newline : Control '\n' := ⟨by decide, by decide, ⟨by decide, by decide⟩, by decide⟩

theorem matchEscape_eq_none_iff {c : Char} {cs : List Char} :
    matchEscape (c :: cs) = none ↔ isFe c = false ∧ (c = '[' → afterFinal (csiTail cs) = none) := by
  rw [matchEscape]
  by_cases hfe : isFe c = true
  · rw [if_pos hfe]
    exact iff_of_false (Option.some_ne_none _) fun h => Bool.false_ne_true (h.1.symm.trans hfe)
  · rw [if_neg hfe, and_iff_right (Bool.eq_false_of_not_eq_true hfe)]
    by_cases hcsi : c = '['
    · rw [if_pos hcsi, imp_iff_right hcsi]
    · rw [if_neg hcsi]
      exact iff_of_true rfl fun h => absurd h hcsi

theorem afterFinal_eq_none_iff {c : Char} {cs : List Char} : afterFinal (c :: cs) = none ↔ isFinal c = false := by
  rw [afterFinal, Bool.eq_false_iff]
  by_cases hfinal : isFinal c = true
  · rw [if_pos hfinal]
    exact iff_of_false (Option.some_ne_none _) (not_not.2 hfinal)
  · rw [if_neg hfinal]
    exact iff_of_true rfl hfinal

/-- No match goes on over a control character. -/
theorem separate_control {c : Char} (hc : Control c) (as bs : List Char) : Separate as (c :: bs) := by
  intro s _ hnone
  cases s with
  | nil => exact matchEscape_eq_none_iff.2 ⟨hc.fe, fun h => absurd h hc.csi⟩
  | cons d ds =>
    obtain ⟨hfe, htail⟩ := matchEscape_eq_none_iff.1 hnone
    rw [List.cons_append, matchEscape_eq_none_iff]
    refine ⟨hfe, fun hcsi => ?_⟩
    have hnofinal := htail hcsi
    rw [csiTail_stop hc.stops]
    cases hds : csiTail ds with
    | nil => exact afterFinal_eq_none_iff.2 hc.final
    | cons e es =>
      rw [hds, afterFinal_eq_none_iff] at hnofinal
      exact afterFinal_eq_none_iff.2 hnofinal

/-- What follows a character that stops the parameters does not make a match of what was none. -/
theorem matchEscape_stop {c : Char} (hc : Stops c) (hcsi : c ≠ '[') {s t : List Char} (h : matchEscape (s ++ c :: t) = none)
    (u : List Char) : matchEscape (s ++ c :: u) = none := by
  cases s with
  | nil => exact matchEscape_eq_none_iff.2 ⟨(matchEscape_eq_none_iff.1 h).1, fun heq => absurd heq hcsi⟩
  | cons d ds =>
    rw [List.cons_append, matchEscape_eq_none_iff] at h ⊢
    obtain ⟨hfe, htail⟩ := h
    refine ⟨hfe, fun hd => ?_⟩
    have hnofinal := htail hd
    rw [csiTail_stop hc] at hnofinal ⊢
    cases hds : csiTail ds with
    | nil =>
      rw [hds] at hnofinal
      exact afterFinal_eq_none_iff.2 (afterFinal_eq_none_iff.1 hnofinal)
    | cons e es =>
      rw [hds] at hnofinal
      exact afterFinal_eq_none_iff.2 (afterFinal_eq_none_iff.1 hnofinal)

/-- No match begins before such a character and ends behind the text that it begins. -/
theorem separate_stop {c : Char} (hc : Stops c) (hcsi : c ≠ '[') {t : List Char} (ht : esc ∉ c :: t) (as bs : List Char) :
    Separate (as ++ c :: t) bs := by
  intro s hs hnone
  rcases List.suffix_or_suffix_of_suffix hs (List.suffix_append as (c :: t)) with hin | hover
  · exact absurd (hin.subset List.mem_cons_self) ht
  · rcases List.suffix_cons_iff.1 hover with heq | ⟨s', rfl⟩
    · exact absurd (heq ▸ List.mem_cons_self) ht
    · rw [List.append_assoc]
      exact matchEscape_stop hc hcsi hnone _

private theorem sub_line (l : List Char) : ansiEscapeSub (l ++ ['\n']) = ansiEscapeSub l ++ ['\n'] := by
  rw [sub_append (separate_control control_newline l []), sub_cons (by decide), ansiEscapeSub]

theorem sub_logText (ls : List (List Char)) (t : List Char) :
    ansiEscapeSub (logText ls ++ t) = (ls.map (· ++ ['\n'])).flatMap ansiEscapeSub ++ ansiEscapeSub t := by
  induction ls with
  | nil => rfl
  | cons l ls ih =>
    have hline : Separate (l ++ ['\n']) (logText ls ++ t) :=
      separate_stop control_newline.stops control_newline.csi (by decide) l _
    have hcons : logText (l :: ls) ++ t = (l ++ ['\n']) ++ (logText ls ++ t) := List.append_assoc ..
    rw [hcons, sub_append hline, ih, List.map_cons, List.flatMap_cons, List.append_assoc]

/-- A match does not go on over a line feed, so the script need not read by lines. -/
theorem deesc_eq (input : List Char) : deesc input = ansiEscapeSub input := by
  have hinput : logText (fullLines input) ++ lastLine input = input := by
    have hjoin := flatten_dropLast (List.splitOn_ne_nil '\n' input)
    rwa [List.intercalate_splitOn, ← List.flatMap_def] at hjoin
  have hlines := sub_logText (fullLines input) (lastLine input)
  rw [hinput] at hlines
  rw [hlines, deesc, readLines, List.flatMap_append]
  split
  next hnil =>
    rw [hnil, ansiEscapeSub]
    rfl
  next => rw [List.flatMap_singleton]

theorem deesc_logText (ls : List (List Char)) : deesc (logText ls) = logText (ls.map ansiEscapeSub) := by
  have hlines := sub_logText ls []
  rw [List.append_nil, ansiEscapeSub, List.append_nil] at hlines
  rw [deesc_eq, hlines, logText, List.flatMap_map, List.flatMap_map]
  exact List.flatMap_congr fun l _ => sub_line l

/-! ### The macros -/

inductive LogLevel
  | e
  | w
  | i
  | d
  | v
  deriving DecidableEq, Repr

namespace LogLevel

/-- From which `PKLOG_LEVEL` on the macro prints. -/
def number : LogLevel → Int
  | e => 1
  | w => 2
  | i => 3
  | d => 4
  | v => 5

def letter : LogLevel → Char
  | e => 'E'
  | w => 'W'
  | i => 'I'
  | d => 'D'
  | v => 'V'

def colour : LogLevel → List Char
  | e => "91".toList
  | w => "93".toList
  | i => "92".toList
  | d => "96".toList
  | v => "90".toList

end LogLevel

/-- The parameters of the log in `conf.h`. -/
structure LogConf where
  appLevel : Int
  libLevel : Int
  printColor : Bool
  printTime : Bool
  printFileLine : Bool
  btraceOnError : Bool
  deriving DecidableEq, Repr

/-- A call of a log macro. -/
structure LogCall where
  /-- `PK_LIB_INCLUDE_FROM_APP` is defined. -/
  fromApp : Bool
  level : LogLevel
  tag : List Char
  line : Nat
  /-- What `fmt` makes of its arguments. -/
  msg : List Char
  /-- Milliseconds. -/
  time : Int
  /-- The stack in `pk_log_btrace`. -/
  stack : Stack

/-- A colour of the text, with the colour of the background reset. -/
def colourText (c : List Char) : List Char := esc :: '[' :: (c ++ 'm' :: esc :: "[49m".toList)

/-- `_PKLOG_CLR_E` to `_PKLOG_CLR_V`. -/
def pklogClr (conf : LogConf) (x : LogLevel) : List Char := if conf.printColor then colourText x.colour else []

/-- `_PKLOG_CLR_R`. -/
def pklogClrR (conf : LogConf) : List Char := if conf.printColor then colourText "39".toList else []

/-- `_PKLOG_LINE`. -/
def pklogLine (conf : LogConf) (c : LogCall) : List Char := if conf.printFileLine then ':' :: Nat.toDigits 10 c.line else []

def printInt (n : Int) : List Char := if n < 0 then '-' :: Nat.toDigits 10 n.natAbs else Nat.toDigits 10 n.natAbs

def pklogTime (conf : LogConf) (c : LogCall) : List Char :=
  if conf.printTime then '(' :: (printInt c.time ++ ") ".toList) else []

/-- What comes before the tag. -/
def pklogHead (conf : LogConf) (c : LogCall) : List Char := pklogTime conf c ++ ['[']

/-- The tag with what comes before the message. -/
def pklogTag (conf : LogConf) (c : LogCall) : List Char := c.tag ++ pklogLine conf c ++ "] ".toList

/-- What `_PKLOGX_ARGS` makes `printf` print, without the line feed. -/
def pklogxArgs (conf : LogConf) (c : LogCall) : List Char :=
  pklogClr conf c.level ++ (c.level.letter :: ' ' :: (pklogClrR conf ++ (pklogHead conf c ++ (pklogTag conf c ++
    (pklogClr conf c.level ++ (c.msg ++ pklogClrR conf))))))

/-- `PKLOG_LEVEL` where the macro is called. -/
def pklogLevel (conf : LogConf) (c : LogCall) : Int := if c.fromApp then conf.appLevel else conf.libLevel

section

variable (espCpuProcessStackPc : BitVec 32 → BitVec 32)

/-- `PKLOGE_TAG` to `PKLOGV_TAG`: what they print, text by text with its line feed. -/
def pklogTexts (conf : LogConf) (c : LogCall) : List (List Char) :=
  if c.level.number ≤ pklogLevel conf c then
    pklogxArgs conf c :: if c.level = .e ∧ conf.btraceOnError then c.stack.lines espCpuProcessStackPc else []
  else []

/-- What these calls print, one after the other. -/
def pklog (conf : LogConf) (cs : List LogCall) : List Char := logText (cs.flatMap (pklogTexts espCpuProcessStackPc conf))

end

/-- The same without the colours. -/
def LogConf.plain (conf : LogConf) : LogConf := { conf with printColor := false }

theorem sub_colourText {c : List Char} (hc : ∀ d ∈ c, isParameter d = true) (bs : List Char) :
    ansiEscapeSub (colourText c ++ bs) = ansiEscapeSub bs := by
  have hbackground : matchEscape ("[49m".toList ++ bs) = some bs := @matchEscape_append "[49m".toList [] (by decide) bs
  have hcolour : matchEscape ('[' :: (c ++ 'm' :: (esc :: ("[49m".toList ++ bs)))) = some (esc :: ("[49m".toList ++ bs)) := by
    rw [matchEscape, if_neg (by decide), if_pos rfl, csiTail, List.dropWhile_append_of_pos hc]
    rfl
  have happend : colourText c ++ bs = esc :: '[' :: (c ++ 'm' :: (esc :: ("[49m".toList ++ bs))) := by
    rw [colourText, List.cons_append, List.cons_append, List.append_assoc]
    rfl
  rw [happend, sub_match hcolour, sub_match hbackground]

theorem isParameter_of_digits {cs : List Char} (h : cs.all Char.isDigit = true) : ∀ d ∈ cs, isParameter d = true := by
  intro d hd
  have hdigit : d.isDigit = true := List.all_eq_true.1 h d hd
  simp only [Char.isDigit, Bool.and_eq_true, decide_eq_true_eq] at hdigit
  rw [isParameter, Bool.and_eq_true, decide_eq_true_eq, decide_eq_true_eq]
  exact ⟨hdigit.1, Char.le_trans hdigit.2 (by decide)⟩

private theorem sub_pklogClr (conf : LogConf) (x : LogLevel) (bs : List Char) : ansiEscapeSub (pklogClr conf x ++ bs) = ansiEscapeSub bs := by
  rw [pklogClr]
  split
  · apply sub_colourText
    apply isParameter_of_digits
    cases x <;> decide
  · rfl

theorem sub_pklogClrR (conf : LogConf) (bs : List Char) : ansiEscapeSub (pklogClrR conf ++ bs) = ansiEscapeSub bs := by
  rw [pklogClrR]
  split
  · exact sub_colourText (isParameter_of_digits (by decide)) bs
  · rfl

private theorem sub_letter (x : LogLevel) (bs : List Char) : ansiEscapeSub (x.letter :: ' ' :: bs) = x.letter :: ' ' :: ansiEscapeSub bs := by
  have hletter : x.letter ≠ esc := by
    cases x <;> decide
  rw [sub_cons hletter, sub_cons (by decide)]

/-- No character of what the macros print themselves, but for the colours. -/
def Foreign (d : Char) : Prop := d.isDigit = false ∧ d ∉ "EWIDV (-) [:] ".toList

theorem foreign_esc : Foreign esc := ⟨by decide, by decide⟩

namespace Foreign

variable {d : Char}

theorem toDigits (h : Foreign d) (n : Nat) : d ∉ Nat.toDigits 10 n := by
  intro hmem
  exact Bool.false_ne_true (h.1.symm.trans (Nat.isDigit_of_mem_toDigits (by decide) (by decide) hmem))

theorem ne (h : Foreign d) {c : Char} (hc : c ∈ "EWIDV (-) [:] ".toList) : d ≠ c := fun heq => h.2 (heq ▸ hc)

theorem printInt (h : Foreign d) (n : Int) : d ∉ printInt n := by
  rw [Log.printInt]
  split
  · rw [List.mem_cons, not_or]
    exact ⟨h.ne (by decide), h.toDigits _⟩
  · exact h.toDigits _

theorem pklogHead (h : Foreign d) (conf : LogConf) (c : LogCall) : d ∉ pklogHead conf c := by
  rw [Log.pklogHead, pklogTime, List.mem_append, List.mem_singleton, not_or]
  refine ⟨?_, h.ne (by decide)⟩
  split
  · have hclose : d ∉ ") ".toList := fun hmem => h.2 (List.Sublist.subset (by decide) hmem)
    rw [List.mem_cons, List.mem_append, not_or, not_or]
    exact ⟨h.ne (by decide), h.printInt _, hclose⟩
  · exact List.not_mem_nil

theorem pklogTag (h : Foreign d) {c : LogCall} (htag : d ∉ c.tag) (conf : LogConf) : d ∉ pklogTag conf c := by
  have hclose : d ∉ "] ".toList := fun hmem => h.2 (List.Sublist.subset (by decide) hmem)
  rw [Log.pklogTag, pklogLine, List.mem_append, List.mem_append, not_or, not_or]
  refine ⟨⟨htag, ?_⟩, hclose⟩
  split
  · rw [List.mem_cons, not_or]
    exact ⟨h.ne (by decide), h.toDigits _⟩
  · exact List.not_mem_nil

end Foreign

/-- What comes before the message, the message and a text that is empty or begins with a sequence. -/
theorem sub_pklogx (conf : LogConf) (c : LogCall) {bs : List Char} (hbs : bs = [] ∨ ∃ cs, bs = esc :: cs) :
    ansiEscapeSub (pklogClr conf c.level ++ (c.level.letter :: ' ' :: (pklogClrR conf ++ (pklogHead conf c ++ (pklogTag conf c ++
      (pklogClr conf c.level ++ (c.msg ++ bs))))))) =
    c.level.letter :: ' ' :: (pklogHead conf c ++ (ansiEscapeSub (pklogTag conf c) ++ (ansiEscapeSub c.msg ++ ansiEscapeSub bs))) := by
  have htag : Separate (pklogTag conf c) (pklogClr conf c.level ++ (c.msg ++ bs)) :=
    separate_stop ⟨by decide, by decide⟩ (by decide) (by decide) (c.tag ++ pklogLine conf c) _
  have hmsg : ansiEscapeSub (c.msg ++ bs) = ansiEscapeSub c.msg ++ ansiEscapeSub bs := by
    rcases hbs with rfl | ⟨cs, rfl⟩
    · rw [List.append_nil, ansiEscapeSub, List.append_nil]
    · exact sub_append (separate_control control_esc c.msg cs)
  rw [sub_pklogClr, sub_letter, sub_pklogClrR, sub_append_of_not_mem (foreign_esc.pklogHead conf c), sub_append htag, sub_pklogClr,
    hmsg]

theorem pklogClrR_eq (conf : LogConf) : pklogClrR conf = [] ∨ ∃ cs, pklogClrR conf = esc :: cs := by
  rw [pklogClrR]
  split
  · exact .inr ⟨_, rfl⟩
  · exact .inl rfl

theorem sub_pklogxArgs (conf : LogConf) (c : LogCall) : ansiEscapeSub (pklogxArgs conf c) =
    c.level.letter :: ' ' :: (pklogHead conf c ++ (ansiEscapeSub (pklogTag conf c) ++ ansiEscapeSub c.msg)) := by
  have hreset : ansiEscapeSub (pklogClrR conf) = [] := by
    have hsub := sub_pklogClrR conf []
    rwa [List.append_nil, ansiEscapeSub] at hsub
  rw [pklogxArgs, sub_pklogx conf c (pklogClrR_eq conf), hreset, List.append_nil]

theorem pklogxArgs_plain (conf : LogConf) (c : LogCall) :
    pklogxArgs conf.plain c = c.level.letter :: ' ' :: (pklogHead conf c ++ (pklogTag conf c ++ c.msg)) := by
  have happend : pklogxArgs conf.plain c = c.level.letter :: ' ' :: (pklogHead conf c ++ (pklogTag conf c ++ (c.msg ++ []))) := rfl
  rw [happend, List.append_nil]

theorem sub_of_not_mem {cs : List Char} (h : esc ∉ cs) : ansiEscapeSub cs = cs := by
  have hsub := sub_append_of_not_mem h []
  rwa [List.append_nil, ansiEscapeSub, List.append_nil] at hsub

/-- The tag and the message hold no escape sequences of their own. -/
def LogCall.Plain (c : LogCall) : Prop := esc ∉ c.tag ∧ esc ∉ c.msg

private theorem sub_pklogxArgs_of_plain (conf : LogConf) {c : LogCall} (h : c.Plain) :
    ansiEscapeSub (pklogxArgs conf c) = pklogxArgs conf.plain c := by
  rw [sub_pklogxArgs, pklogxArgs_plain, sub_of_not_mem (foreign_esc.pklogTag h.1 conf), sub_of_not_mem h.2]

/-! ### The backtraces between the lines -/

variable {espCpuProcessStackPc : BitVec 32 → BitVec 32}

theorem not_mem_lines {d : Char} (hhex : CLiteral.isHex d = false) (hd : d ∉ "PKBTRACE STARTEND:0x".toList) {s : Stack}
    {l : List Char} (hl : l ∈ s.lines espCpuProcessStackPc) : d ∉ l := by
  have hentry : ∀ pc sp, d ∉ entryLine pc sp := by
    intro pc sp
    simp only [entryLine, List.mem_append, not_or]
    refine ⟨⟨⟨⟨fun hmem => hd ?_, fun hmem => hd ?_⟩, not_mem_format08x hhex pc⟩, fun hmem => hd ?_⟩, not_mem_format08x hhex sp⟩
    · exact List.Sublist.subset (by decide) hmem
    · exact List.Sublist.subset (by decide) hmem
    · exact List.Sublist.subset (by decide) hmem
  rw [Stack.lines, List.mem_cons, List.mem_append, List.mem_map, List.mem_singleton] at hl
  rcases hl with rfl | ⟨c, -, rfl⟩ | rfl
  · exact fun hmem => hd (List.Sublist.subset (by decide) hmem)
  · exact hentry _ _
  · exact fun hmem => hd (List.Sublist.subset (by decide) hmem)

private theorem sub_pklogTexts (conf : LogConf) (c : LogCall) : (pklogTexts espCpuProcessStackPc conf c).map ansiEscapeSub =
    (pklogTexts espCpuProcessStackPc conf.plain c).map ansiEscapeSub := by
  have hlevel : pklogLevel conf.plain c = pklogLevel conf c := rfl
  have hplain : ansiEscapeSub (pklogxArgs conf c) = ansiEscapeSub (pklogxArgs conf.plain c) := by
    rw [sub_pklogxArgs, sub_pklogxArgs]
    rfl
  rw [pklogTexts, pklogTexts, hlevel]
  split
  · rw [List.map_cons, List.map_cons, hplain]
    rfl
  · rfl

private theorem sub_pklogTexts_of_plain (conf : LogConf) {c : LogCall} (h : c.Plain) :
    (pklogTexts espCpuProcessStackPc conf c).map ansiEscapeSub = pklogTexts espCpuProcessStackPc conf.plain c := by
  have hlevel : pklogLevel conf.plain c = pklogLevel conf c := rfl
  have hbacktrace : (c.stack.lines espCpuProcessStackPc).map ansiEscapeSub = c.stack.lines espCpuProcessStackPc := by
    refine (List.map_congr_left fun l hl => ?_).trans (List.map_id _)
    exact sub_of_not_mem (not_mem_lines (by decide) (by decide) hl)
  rw [pklogTexts, pklogTexts, hlevel]
  split
  · rw [List.map_cons, sub_pklogxArgs_of_plain conf h]
    refine congrArg (_ :: ·) ?_
    by_cases hbtrace : c.level = .e ∧ conf.btraceOnError = true
    · rw [if_pos hbtrace]
      exact hbacktrace.trans (if_pos hbtrace).symm
    · rw [if_neg hbtrace]
      exact (if_neg hbtrace).symm
  · rfl

/-- **Whatever tags and messages hold, also unfinished escape sequences, `deesc.py` makes the same of the log with colours as of the log without; where they hold none it makes the log without colours of it, backtraces included.** -/
theorem deesc_pklog (conf : LogConf) (cs : List LogCall) :
    deesc (pklog espCpuProcessStackPc conf cs) = deesc (pklog espCpuProcessStackPc conf.plain cs) ∧
      ((∀ c ∈ cs, c.Plain) → deesc (pklog espCpuProcessStackPc conf cs) = pklog espCpuProcessStackPc conf.plain cs) := by
  rw [pklog, pklog, deesc_logText, deesc_logText, List.map_flatMap, List.map_flatMap]
  constructor
  · exact congrArg logText (List.flatMap_congr fun c _ => sub_pklogTexts conf c)
  · intro hplain
    exact congrArg logText (List.flatMap_congr fun c hc => sub_pklogTexts_of_plain conf (hplain c hc))

/-- Everything that the log can show. -/
def fullLog : LogConf := ⟨5, 5, true, true, true, true⟩

def oneFailure : LogCall := ⟨false, .e, "ota".toList, 7, "failed".toList, 12, oneCall⟩

theorem deesc_pklog_oneFailure : deesc (pklog callAddress fullLog [oneFailure]) =
    logText ["E (12) [ota:7] failed".toList, startLine, entryLine 0x400d494c 0x2260, endLine] := by
  have hplain : ∀ c ∈ [oneFailure], c.Plain := by
    rw [List.forall_mem_singleton]
    exact ⟨by decide, by decide⟩
  exact ((deesc_pklog fullLog [oneFailure]).2 hplain).trans (by decide +kernel)

/-! ### Through the monitor -/

/-- The calls that print. -/
def printed (conf : LogConf) (cs : List LogCall) : List LogCall := cs.filter fun c => c.level.number ≤ pklogLevel conf c

/-- The stacks of the calls with a backtrace. -/
def traced (conf : LogConf) (cs : List LogCall) : List Stack :=
  ((printed conf cs).filter fun c => c.level = .e ∧ conf.btraceOnError = true).map LogCall.stack

private theorem ordinary_pklogxArgs (conf : LogConf) (c : LogCall) : Ordinary (pklogxArgs conf c) := by
  have hhead : ∃ d cs, pklogxArgs conf c = d :: cs ∧ d ≠ 'P' ∧ d ≠ 'B' := by
    rw [pklogxArgs, pklogClr]
    split
    · exact ⟨esc, _, rfl, by decide, by decide⟩
    · refine ⟨c.level.letter, _, rfl, ?_, ?_⟩
      · cases c.level <;> decide
      · cases c.level <;> decide
  obtain ⟨d, cs, heq, hp, hb⟩ := hhead
  rw [heq]
  constructor
  · intro hpref
    exact hp (List.cons_prefix_cons.1 hpref).1.symm
  · intro hpref
    exact hb (List.cons_prefix_cons.1 hpref).1.symm

private theorem not_ordinary_of_lines {s : Stack} {l : List Char} (hl : l ∈ s.lines espCpuProcessStackPc) : ¬ Ordinary l := by
  intro hordinary
  have hmark : mark l ∈ (s.lines espCpuProcessStackPc).map mark := List.mem_map_of_mem hl
  rw [map_mark_lines, mark_eq_ordinary_iff.2 hordinary] at hmark
  simp at hmark

theorem filter_pklogTexts (conf : LogConf) (cs : List LogCall) :
    ((cs.flatMap (pklogTexts espCpuProcessStackPc conf)).filter fun l => ¬ Ordinary l) =
        (traced conf cs).flatMap (Stack.lines espCpuProcessStackPc) ∧
      (cs.flatMap (pklogTexts espCpuProcessStackPc conf)).filter (Ordinary ·) = (printed conf cs).map (pklogxArgs conf) := by
  have hlines : ∀ s : Stack, ((s.lines espCpuProcessStackPc).filter fun l => ¬ Ordinary l) = s.lines espCpuProcessStackPc ∧
      (s.lines espCpuProcessStackPc).filter (Ordinary ·) = [] := by
    intro s
    refine ⟨List.filter_eq_self.2 fun l hl => ?_, List.filter_eq_nil_iff.2 fun l hl => ?_⟩
    · exact decide_eq_true (not_ordinary_of_lines hl)
    · exact fun h => not_ordinary_of_lines hl (of_decide_eq_true h)
  induction cs with
  | nil => exact ⟨rfl, rfl⟩
  | cons c cs ih =>
    rw [List.flatMap_cons, List.filter_append, List.filter_append, ih.1, ih.2, pklogTexts]
    by_cases hprints : c.level.number ≤ pklogLevel conf c
    · have hordinary := ordinary_pklogxArgs conf c
      have hprinted : printed conf (c :: cs) = c :: printed conf cs := List.filter_cons_of_pos (decide_eq_true hprints)
      rw [if_pos hprints, List.filter_cons_of_neg (by simpa using hordinary), List.filter_cons_of_pos (by simpa using hordinary),
        hprinted]
      by_cases hbtrace : c.level = .e ∧ conf.btraceOnError = true
      · have htraced : traced conf (c :: cs) = c.stack :: traced conf cs := by
          rw [traced, hprinted, List.filter_cons_of_pos (by simpa using hbtrace)]
          rfl
        rw [if_pos hbtrace, (hlines _).1, (hlines _).2, htraced]
        exact ⟨rfl, rfl⟩
      · have htraced : traced conf (c :: cs) = traced conf cs := by
          rw [traced, hprinted, List.filter_cons_of_neg (by simpa using hbtrace)]
          rfl
        rw [if_neg hbtrace, htraced]
        exact ⟨rfl, rfl⟩
    · have hprinted : printed conf (c :: cs) = printed conf cs := List.filter_cons_of_neg (by simpa using hprints)
      have htraced : traced conf (c :: cs) = traced conf cs := by
        rw [traced, hprinted]
        rfl
      rw [if_neg hprints, hprinted, htraced]
      exact ⟨rfl, rfl⟩

namespace Foreign

variable {d : Char}

theorem digits (h : Foreign d) {cs : List Char} (hcs : cs.all Char.isDigit = true) : d ∉ cs := by
  intro hmem
  exact Bool.false_ne_true (h.1.symm.trans (List.all_eq_true.1 hcs d hmem))

theorem colourText (h : Foreign d) (hesc : d ≠ esc) (hm : d ≠ 'm') {cs : List Char} (hcs : cs.all Char.isDigit = true) :
    d ∉ colourText cs := by
  have hbackground : d ∉ '[' :: ("49".toList ++ ['m']) := by
    rw [List.mem_cons, List.mem_append, List.mem_singleton, not_or, not_or]
    exact ⟨h.ne (by decide), h.digits (by decide), hm⟩
  rw [Log.colourText, List.mem_cons, List.mem_cons, List.mem_append, List.mem_cons, List.mem_cons, not_or, not_or, not_or, not_or,
    not_or]
  exact ⟨hesc, h.ne (by decide), h.digits hcs, hm, hesc, hbackground⟩

theorem pklogxArgs (h : Foreign d) (hesc : d ≠ esc) (hm : d ≠ 'm') {c : LogCall} (htag : d ∉ c.tag) (hmsg : d ∉ c.msg)
    (conf : LogConf) : d ∉ pklogxArgs conf c := by
  have hclr : d ∉ pklogClr conf c.level := by
    rw [pklogClr]
    split
    · apply h.colourText hesc hm
      cases c.level <;> decide
    · exact List.not_mem_nil
  have hreset : d ∉ pklogClrR conf := by
    rw [pklogClrR]
    split
    · exact h.colourText hesc hm (by decide)
    · exact List.not_mem_nil
  have hletter : d ≠ c.level.letter := by
    apply h.ne
    cases c.level <;> decide
  simp only [Log.pklogxArgs, List.mem_append, List.mem_cons, not_or]
  exact ⟨hclr, hletter, h.ne (by decide), hreset, h.pklogHead conf c, h.pklogTag htag conf, hclr, hmsg, hreset⟩

end Foreign

/-- One line, without escape sequences of its own. -/
structure LogCall.OneLine (c : LogCall) : Prop where
  plain : c.Plain
  newline : '\n' ∉ c.tag ∧ '\n' ∉ c.msg
  cr : '\r' ∉ c.tag ∧ '\r' ∉ c.msg

private theorem logs_pklogTexts (conf : LogConf) {cs : List LogCall} (h : ∀ c ∈ cs, c.OneLine) :
    Logs espCpuProcessStackPc (traced conf cs) (cs.flatMap (pklogTexts espCpuProcessStackPc conf)) := by
  refine ⟨fun l hl => ?_, (filter_pklogTexts conf cs).1⟩
  obtain ⟨c, hc, hl⟩ := List.mem_flatMap.1 hl
  have hline := h c hc
  have htext : '\n' ∉ pklogxArgs conf c ∧ '\r' ∉ pklogxArgs conf c :=
    ⟨Foreign.pklogxArgs ⟨by decide, by decide⟩ (by decide) (by decide) hline.newline.1 hline.newline.2 conf,
      Foreign.pklogxArgs ⟨by decide, by decide⟩ (by decide) (by decide) hline.cr.1 hline.cr.2 conf⟩
  rw [pklogTexts] at hl
  split at hl
  · rcases List.mem_cons.1 hl with rfl | hl
    · exact htext
    · split at hl
      · exact ⟨not_mem_lines (by decide) (by decide) hl, not_mem_lines (by decide) (by decide) hl⟩
      · cases hl
  · cases hl

/-- What is left of a line of the log on the terminal once `deesc.py` has removed the sequences. -/
def shownLine (conf : LogConf) (c : LogCall) : List Char :=
  if conf.printColor then pklogxArgs conf.plain c ++ esc :: "[49".toList else (pklogxArgs conf.plain c).dropLast

private theorem esc_not_mem_plain (conf : LogConf) {c : LogCall} (h : c.Plain) : esc ∉ pklogxArgs conf.plain c := by
  have hletter : esc ≠ c.level.letter := by
    cases c.level <;> decide
  rw [pklogxArgs_plain, List.mem_cons, List.mem_cons, List.mem_append, List.mem_append, not_or, not_or, not_or, not_or]
  exact ⟨hletter, by decide, foreign_esc.pklogHead conf c, foreign_esc.pklogTag h.1 conf, h.2⟩

/-- The reset of the colours without its last character. -/
def cutReset : List Char := esc :: ("[39m".toList ++ esc :: "[49".toList)

private theorem sub_cutReset : ansiEscapeSub cutReset = esc :: "[49".toList := by
  have hmatch : matchEscape ("[39m".toList ++ esc :: "[49".toList) = some (esc :: "[49".toList) := by decide
  rw [cutReset, sub_match hmatch, sub_noMatch (by decide), sub_of_not_mem (by decide)]

private theorem sub_dropLast_pklogxArgs (conf : LogConf) {c : LogCall} (h : c.Plain) :
    ansiEscapeSub (pklogxArgs conf c).dropLast = shownLine conf c := by
  rw [shownLine]
  by_cases hcolour : conf.printColor = true
  · have hreset : pklogClrR conf = cutReset ++ ['m'] := by
      rw [pklogClrR, if_pos hcolour]
      rfl
    have hcut : pklogxArgs conf c = pklogClr conf c.level ++ (c.level.letter :: ' ' :: (pklogClrR conf ++ (pklogHead conf c ++
        (pklogTag conf c ++ (pklogClr conf c.level ++ (c.msg ++ cutReset)))))) ++ ['m'] := by
      rw [pklogxArgs]
      nth_rewrite 2 [hreset]
      simp only [List.append_assoc, List.cons_append]
    have hsub := @sub_pklogx conf c cutReset (.inr ⟨_, rfl⟩)
    rw [if_pos hcolour, hcut, List.dropLast_concat, hsub, sub_cutReset, pklogxArgs_plain,
      sub_of_not_mem (foreign_esc.pklogTag h.1 conf), sub_of_not_mem h.2]
    simp only [List.append_assoc, List.cons_append]
  · have hplain : conf = conf.plain := by
      cases conf
      rw [LogConf.plain]
      simpa using hcolour
    rw [if_neg hcolour, ← hplain, sub_of_not_mem]
    intro hmem
    exact esc_not_mem_plain conf h (hplain ▸ List.mem_of_mem_dropLast hmem)

/-- **The calls of the log macros, with tags and messages of one line without escape characters, on the terminal: the backtrace of each error that has one, with all callers, and of every other line what `deesc.py` leaves of it.** -/
theorem monitor_pklog {addr2line : List Char → List Char} (h : TwoLines addr2line) (conf : LogConf) {cs : List LogCall}
    (hcs : ∀ c ∈ cs, c.OneLine) (crlf : Bool) :
    (Mon.run false (uart crlf (CLiteral.utf8 (pklog espCpuProcessStackPc conf cs)))).written =
        CLiteral.utf8 (pklog espCpuProcessStackPc conf cs) ∧
      ∃ b, Btrace.main addr2line (pklog espCpuProcessStackPc conf cs) = .ok b ∧
        b.backtraces = (traced conf cs).flatMap (fun s => close true (s.entries espCpuProcessStackPc)) ∧
        deesc (logText b.lines) = logText ((printed conf cs).map (shownLine conf)) := by
  have hlogs := @logs_pklogTexts espCpuProcessStackPc conf cs hcs
  obtain ⟨b, hmain, hbacktraces, hlines⟩ := hlogs.main h
  refine ⟨monitor_reads hlogs.cr_not_mem, b, hmain, hbacktraces, ?_⟩
  rw [hlines, (filter_pklogTexts conf cs).2, deesc_logText, List.map_map, List.map_map]
  refine congrArg logText (List.map_congr_left fun c hc => ?_)
  exact sub_dropLast_pklogxArgs conf (hcs c (List.mem_filter.1 hc).1).plain

theorem monitor_pklog_oneFailure : ∃ b, Btrace.main unknownAddresses (pklog callAddress fullLog [oneFailure]) = .ok b ∧
    b.backtraces = [⟨true, [⟨0x400d494c, 0x2260⟩]⟩] ∧ deesc (logText b.lines) = "E (12) [ota:7] failed\x1b[49\n".toList := by
  have honeLine : ∀ c ∈ [oneFailure], c.OneLine := by
    rw [List.forall_mem_singleton]
    exact ⟨⟨by decide, by decide⟩, ⟨by decide, by decide⟩, by decide, by decide⟩
  obtain ⟨-, b, hmain, hbacktraces, hlines⟩ :=
    monitor_pklog unknownAddresses_twoLines fullLog honeLine true
  exact ⟨b, hmain, hbacktraces.trans (by decide +kernel), hlines.trans (by decide +kernel)⟩

end Vedruino.Log
