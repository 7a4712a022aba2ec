import Mathlib.Data.List.Basic
import Vedruino.Lib.CLiteral

/-!
# The macros of a header

The first phases of the translation of C: lines are spliced, comments become blanks, and each line is a directive or empty. Read are headers that only define macros without parameters.
-/

namespace Vedruino.CMacros

/-- The phase that splices lines. -/
def splice : List Char → List Char
  | [] => []
  | c :: cs => if c = '\\' ∧ cs.head? = some '\n' then (splice cs).tail else c :: splice cs

/-- What the next character belongs to. -/
inductive Part
  | code | literal (quote : Char) | escape (quote : Char) | slash | line | block | star
  deriving DecidableEq, Repr

def isQuote (c : Char) : Bool := c = '"' || c = Char.ofNat 0x27

/-- The phase that turns each comment into a blank; `none` is a comment or literal without an end. -/
def uncomment : Part → List Char → Option (List Char)
  | .code, [] => some []
  | .code, c :: cs =>
    if c = '/' then uncomment .slash cs
    else (uncomment (if isQuote c then .literal c else .code) cs).map (c :: ·)
  | .slash, [] => some ['/']
  | .slash, c :: cs =>
    if c = '/' then (uncomment .line cs).map (' ' :: ·)
    else if c = '*' then (uncomment .block cs).map (' ' :: ·)
    else (uncomment (if isQuote c then .literal c else .code) cs).map fun t => '/' :: c :: t
  | .literal _, [] => none
  | .literal q, c :: cs =>
    if c = '\n' then none
    else (uncomment (if c = q then .code else if c = '\\' then .escape q else .literal q) cs).map (c :: ·)
  | .escape _, [] => none
  | .escape q, c :: cs => if c = '\n' then none else (uncomment (.literal q) cs).map (c :: ·)
  | .line, [] => some []
  | .line, c :: cs => if c = '\n' then (uncomment .code cs).map (c :: ·) else uncomment .line cs
  | .block, [] => none
  | .block, c :: cs => uncomment (if c = '*' then .star else .block) cs
  | .star, [] => none
  | .star, c :: cs => uncomment (if c = '/' then .code else if c = '*' then .star else .block) cs

def isBlank (c : Char) : Bool := c = ' ' || c = '\t'

def isNameChar (c : Char) : Bool := c.isAlphanum || c = '_'

/-- What follows `define`. -/
def readDefine (cs : List Char) : Option (List Char × List Char) :=
  let name := cs.takeWhile isNameChar
  let body := cs.dropWhile isNameChar
  if name ≠ [] ∧ body.head?.all isBlank then some (name, body.dropWhile isBlank) else none

/-- What follows the `#` of a directive. -/
def readDirective (cs : List Char) : Option (Option (List Char × List Char)) :=
  let name := cs.takeWhile isNameChar
  if name = "pragma".toList then some none
  else if name = "define".toList then (readDefine ((cs.dropWhile isNameChar).dropWhile isBlank)).map some
  else none

/-- A line without comments: nothing, or the macro that it defines. Other lines than directives are not read. -/
def readLine (l : List Char) : Option (Option (List Char × List Char)) :=
  match l.dropWhile isBlank with
  | [] => some none
  | c :: cs => if c = '#' then readDirective (cs.dropWhile isBlank) else none

/-- The macros that a source defines, with the texts that they stand for. -/
def macros (source : List Char) : Option (List (List Char × List Char)) :=
  (uncomment .code (splice source)).bind fun text => ((text.splitOn '\n').mapM readLine).map fun ls => ls.filterMap id

/-- Whole lines that define these macros, whatever follows them. -/
def Lines (source : List Char) (ms : List (List Char × List Char)) : Prop :=
  ∀ rest, macros (source ++ rest) = (macros rest).map (ms ++ ·)

theorem Lines.nil : Lines [] [] := fun rest => (congrFun Option.map_id (macros rest)).symm

theorem Lines.append {s t : List Char} {ms ns : List (List Char × List Char)} (hs : Lines s ms) (ht : Lines t ns) :
    Lines (s ++ t) (ms ++ ns) := by
  intro rest
  rw [List.append_assoc, hs, ht, Option.map_map]
  apply congrFun
  apply congrArg
  funext ks
  exact (List.append_assoc ms ns ks).symm

theorem Lines.flatMap {α : Type} {f : α → List Char} {g : α → List (List Char × List Char)} {xs : List α}
    (h : ∀ x ∈ xs, Lines (f x) (g x)) : Lines (xs.flatMap f) (xs.flatMap g) := by
  induction xs with
  | nil => exact .nil
  | cons x xs ih =>
    obtain ⟨hx, hxs⟩ := List.forall_mem_cons.1 h
    rw [List.flatMap_cons, List.flatMap_cons]
    exact hx.append (ih hxs)

theorem splice_line {l rest : List Char} (hline : '\n' ∉ l) (hlast : l.getLast? ≠ some '\\') :
    splice (l ++ '\n' :: rest) = l ++ '\n' :: splice rest := by
  induction l with
  | nil =>
    show splice ('\n' :: rest) = _
    rw [splice, if_neg fun h => absurd h.1 (by decide)]
    rfl
  | cons c l ih =>
    rw [List.mem_cons, not_or] at hline
    have hkeep : ¬ (c = '\\' ∧ (l ++ '\n' :: rest).head? = some '\n') := by
      intro h
      cases l with
      | nil => exact hlast (by rw [h.1]; rfl)
      | cons d l =>
        rw [List.cons_append, List.head?_cons, Option.some.injEq] at h
        exact hline.2 (by rw [h.2]; exact List.mem_cons_self)
    have hrest : l.getLast? ≠ some '\\' := by
      cases l with
      | nil => exact nofun
      | cons d l => rwa [List.getLast?_cons_cons] at hlast
    rw [List.cons_append, splice, if_neg hkeep, ih hline.2 hrest]
    rfl

/-- A line is read apart from what follows when its comments end with it. -/
theorem Lines.of_line {l l' : List Char} {m : Option (List Char × List Char)} (hline : '\n' ∉ l) (hlast : l.getLast? ≠ some '\\')
    (huncomment : ∀ rest, uncomment .code (l ++ '\n' :: rest) = (uncomment .code rest).map fun t => l' ++ '\n' :: t)
    (hline' : '\n' ∉ l') (hread : readLine l' = some m) : Lines (l ++ ['\n']) m.toList := by
  intro rest
  rw [List.append_assoc, List.singleton_append, macros, splice_line hline hlast, huncomment, macros]
  cases uncomment .code (splice rest) with
  | none => rfl
  | some text =>
    rw [Option.map_some, Option.bind_some, Option.bind_some, List.splitOn_append_cons_self_of_not_mem hline', List.mapM_cons, hread]
    show (((text.splitOn '\n').mapM readLine).bind fun ls => some (m :: ls)).map _ = _
    cases (text.splitOn '\n').mapM readLine with
    | none => rfl
    | some ls => cases m <;> rfl

/-! ### Lines of a header -/

theorem Lines.empty : Lines ['\n'] [] :=
  .of_line (l := []) List.not_mem_nil nofun (fun _ => rfl) List.not_mem_nil rfl

theorem uncomment_line {cs : List Char} (hline : '\n' ∉ cs) (rest : List Char) :
    uncomment .line (cs ++ '\n' :: rest) = (uncomment .code rest).map ('\n' :: ·) := by
  induction cs with
  | nil => exact if_pos rfl
  | cons c cs ih =>
    rw [List.mem_cons, not_or] at hline
    exact (if_neg (Ne.symm hline.1)).trans (ih hline.2)

theorem Lines.comment {cs : List Char} (hline : '\n' ∉ cs) (hlast : cs.getLast? ≠ some '\\') :
    Lines ('/' :: '/' :: cs ++ ['\n']) [] := by
  refine @Lines.of_line _ [' '] _ ?_ ?_ (fun rest => ?_) (by decide) rfl
  · rw [List.mem_cons, List.mem_cons, not_or, not_or]
    exact ⟨by decide, by decide, hline⟩
  · cases cs with
    | nil => decide
    | cons c cs => rwa [List.getLast?_cons_cons, List.getLast?_cons_cons]
  · show (uncomment .line (cs ++ '\n' :: rest)).map (' ' :: ·) = _
    rw [uncomment_line hline, Option.map_map]
    rfl

/-- Neither a comment nor a literal begins with the character. -/
def Plain (c : Char) : Prop := c ≠ '/' ∧ isQuote c = false

instance : DecidablePred Plain := fun c => inferInstanceAs (Decidable (c ≠ '/' ∧ isQuote c = false))

theorem uncomment_plain {cs : List Char} (h : ∀ c ∈ cs, Plain c) (rest : List Char) :
    uncomment .code (cs ++ rest) = (uncomment .code rest).map (cs ++ ·) := by
  induction cs with
  | nil => exact (congrFun Option.map_id (uncomment .code rest)).symm
  | cons c cs ih =>
    obtain ⟨⟨hslash, hquote⟩, hcs⟩ := List.forall_mem_cons.1 h
    rw [List.cons_append, uncomment, if_neg hslash, hquote, if_neg Bool.false_ne_true, ih hcs, Option.map_map]
    rfl

/-- Inside of a string literal the character stands for itself. -/
def Ordinary (c : Char) : Prop := c ≠ '\n' ∧ c ≠ '"' ∧ c ≠ '\\'

theorem uncomment_ordinary {cs : List Char} (h : ∀ c ∈ cs, Ordinary c) (rest : List Char) :
    uncomment (.literal '"') (cs ++ rest) = (uncomment (.literal '"') rest).map (cs ++ ·) := by
  induction cs with
  | nil => exact (congrFun Option.map_id (uncomment (.literal '"') rest)).symm
  | cons c cs ih =>
    obtain ⟨⟨hline, hquote, hback⟩, hcs⟩ := List.forall_mem_cons.1 h
    rw [List.cons_append, uncomment, if_neg hline, if_neg hquote, if_neg hback, ih hcs, Option.map_map]
    rfl

theorem ordinary_of_isHex {c : Char} (h : CLiteral.isHex c = true) : Ordinary c := by
  refine ⟨?_, ?_, ?_⟩
  · rintro rfl
    cases h
  · rintro rfl
    cases h
  · rintro rfl
    cases h

/-- The characters of a string literal up to its closing quote. -/
def Literal (l : List Char) : Prop :=
  '\n' ∉ l ∧ l.getLast? = some '"' ∧ ∀ rest, uncomment (.literal '"') (l ++ rest) = (uncomment .code rest).map (l ++ ·)

theorem Literal.cons {c : Char} (hc : Ordinary c) {l : List Char} (h : Literal l) : Literal (c :: l) := by
  obtain ⟨hline, hlast, huncomment⟩ := h
  refine ⟨?_, ?_, fun rest => ?_⟩
  · rw [List.mem_cons, not_or]
    exact ⟨hc.1.symm, hline⟩
  · rw [List.getLast?_cons, hlast]
    rfl
  · rw [List.cons_append, ← List.singleton_append, uncomment_ordinary (List.forall_mem_singleton.2 hc), huncomment, Option.map_map]
    rfl

theorem Literal.append {cs : List Char} (hcs : ∀ c ∈ cs, Ordinary c) {l : List Char} (h : Literal l) : Literal (cs ++ l) := by
  induction cs with
  | nil => exact h
  | cons c cs ih =>
    obtain ⟨hc, hcs⟩ := List.forall_mem_cons.1 hcs
    exact (ih hcs).cons hc

theorem Literal.escape {c : Char} (hc : c ≠ '\n') {l : List Char} (h : Literal l) : Literal ('\\' :: c :: l) := by
  obtain ⟨hline, hlast, huncomment⟩ := h
  refine ⟨?_, ?_, fun rest => ?_⟩
  · rw [List.mem_cons, List.mem_cons, not_or, not_or]
    exact ⟨by decide, hc.symm, hline⟩
  · rw [List.getLast?_cons_cons, List.getLast?_cons, hlast]
    rfl
  · show (if c = '\n' then none else (uncomment (.literal '"') (l ++ rest)).map (c :: ·)).map ('\\' :: ·) = _
    rw [if_neg hc, huncomment, Option.map_map, Option.map_map]
    rfl

/-- What the grammar of literals takes for one, the translation takes for one too. -/
theorem literal_of_chars {cs rest : List Char} {bs : List UInt8} (h : CLiteral.chars cs = some (bs, rest)) :
    ∃ l, cs = l ++ rest ∧ Literal l := by
  induction hn : cs.length using Nat.strongRecOn generalizing cs bs with
  | ind n ih =>
    cases cs with
    | nil =>
      rw [CLiteral.chars] at h
      cases h
    | cons c cs =>
      rw [List.length_cons] at hn
      by_cases hquote : c = '"'
      · rw [hquote, CLiteral.chars_quote] at h
        cases h
        exact ⟨['"'], by rw [hquote]; rfl, by decide, rfl, fun _ => rfl⟩
      · by_cases hline : c = '\n'
        · rw [CLiteral.chars, if_neg hquote, if_pos hline] at h
          cases h
        · by_cases hback : c = '\\'
          · subst hback
            obtain ⟨bs₁, rest₁, bs₂, hescape, hrest, rfl⟩ := CLiteral.exists_escape h
            obtain ⟨d, ds, rfl, hds, -⟩ := CLiteral.escape_consumes hescape
            rw [List.length_cons, List.length_append] at hn
            obtain ⟨l, rfl, hl⟩ := ih rest₁.length (by omega) hrest rfl
            have hd : d ≠ '\n' := by
              rintro rfl
              cases hescape
            refine ⟨'\\' :: d :: (ds ++ l), ?_, (hl.append fun e he => ordinary_of_isHex (hds e he)).escape hd⟩
            simp
          · rw [CLiteral.chars_ordinary hquote hline hback, Option.map_eq_some_iff] at h
            obtain ⟨⟨bs', rest'⟩, hchars, heq⟩ := h
            cases heq
            obtain ⟨l, rfl, hl⟩ := ih cs.length (by omega) hchars rfl
            exact ⟨c :: l, rfl, hl.cons ⟨hline, hquote, hback⟩⟩

/-- The text of a macro on the rest of its line. -/
structure Body (value : List Char) : Prop where
  line : '\n' ∉ value
  last : value.getLast? ≠ some '\\'
  head : ∃ c ∈ value.head?, isBlank c = false
  uncommented : ∀ rest, uncomment .code (value ++ '\n' :: rest) = (uncomment .code rest).map fun t => value ++ '\n' :: t

theorem Body.plain {value : List Char} (h : ∀ c ∈ value, Plain c ∧ c ≠ '\n' ∧ c ≠ '\\') (hhead : ∃ c ∈ value.head?, isBlank c = false) :
    Body value where
  line hmem := (h _ hmem).2.1 rfl
  last hlast := (h _ (List.mem_of_getLast? hlast)).2.2 rfl
  head := hhead
  uncommented rest := by
    rw [uncomment_plain fun c hc => (h c hc).1]
    show ((uncomment .code rest).map ('\n' :: ·)).map (value ++ ·) = _
    rw [Option.map_map]
    rfl

theorem Body.literal {l : List Char} (h : Literal l) : Body ('"' :: l) where
  line := by
    rw [List.mem_cons, not_or]
    exact ⟨by decide, h.1⟩
  last := by
    rw [List.getLast?_cons, h.2.1]
    decide
  head := ⟨'"', rfl, rfl⟩
  uncommented rest := by
    show (uncomment (.literal '"') (l ++ '\n' :: rest)).map ('"' :: ·) = _
    rw [h.2.2]
    show (((uncomment .code rest).map ('\n' :: ·)).map (l ++ ·)).map ('"' :: ·) = _
    rw [Option.map_map, Option.map_map]
    rfl

def IsName (name : List Char) : Prop := name ≠ [] ∧ ∀ c ∈ name, isNameChar c = true

instance : DecidablePred IsName := fun name => inferInstanceAs (Decidable (name ≠ [] ∧ ∀ c ∈ name, isNameChar c = true))

theorem not_blank_of_isNameChar {c : Char} (h : isNameChar c = true) : isBlank c = false := by
  rw [isBlank, Bool.or_eq_false_iff, decide_eq_false_iff_not, decide_eq_false_iff_not]
  refine ⟨?_, ?_⟩
  · rintro rfl
    cases h
  · rintro rfl
    cases h

theorem plain_of_isNameChar {c : Char} (h : isNameChar c = true) : Plain c := by
  refine ⟨?_, ?_⟩
  · rintro rfl
    cases h
  · rw [isQuote, Bool.or_eq_false_iff, decide_eq_false_iff_not, decide_eq_false_iff_not]
    refine ⟨?_, ?_⟩
    · rintro rfl
      cases h
    · rintro rfl
      cases h

theorem dropWhile_blank {c : Char} {cs : List Char} (h : isBlank c = false) : (c :: cs).dropWhile isBlank = c :: cs := by
  rw [List.dropWhile_cons_of_neg]
  rw [h]
  exact Bool.false_ne_true

theorem readDefine_eq {name value : List Char} (hname : IsName name) (hhead : ∃ c ∈ value.head?, isBlank c = false) :
    readDefine (name ++ ' ' :: value) = some (name, value) := by
  obtain ⟨d, hd, hblank⟩ := hhead
  obtain ⟨vs, rfl⟩ := List.head?_eq_some_iff.1 hd
  have hspan := @CLiteral.span_append isNameChar _ (' ' :: d :: vs) hname.2 fun c hc => by cases hc; rfl
  have hbody : (' ' :: d :: vs).dropWhile isBlank = d :: vs := dropWhile_blank hblank
  rw [readDefine, hspan.1, hspan.2, if_pos ⟨hname.1, rfl⟩, hbody]

theorem readLine_define {name value : List Char} (hname : IsName name) (hhead : ∃ c ∈ value.head?, isBlank c = false) :
    readLine ("#define ".toList ++ (name ++ ' ' :: value)) = some (some (name, value)) := by
  obtain ⟨n, ns, rfl⟩ := List.exists_cons_of_ne_nil hname.1
  have hspan := @CLiteral.span_append isNameChar "define".toList (' ' :: (n :: ns ++ ' ' :: value))
    (List.all_eq_true.1 (by decide)) fun c hc => by cases hc; rfl
  have hrest : ((' ' :: (n :: ns ++ ' ' :: value)).dropWhile isBlank) = n :: ns ++ ' ' :: value :=
    dropWhile_blank (not_blank_of_isNameChar (hname.2 n List.mem_cons_self))
  show readDirective ("define".toList ++ ' ' :: (n :: ns ++ ' ' :: value)) = _
  rw [readDirective, hspan.1, hspan.2, if_neg (by decide), if_pos rfl, hrest, readDefine_eq hname hhead]
  rfl

theorem Lines.define {name value : List Char} (hname : IsName name) (hvalue : Body value) :
    Lines ("#define ".toList ++ (name ++ ' ' :: value) ++ ['\n']) [(name, value)] := by
  obtain ⟨hline, hlast, hhead, huncomment⟩ := hvalue
  have hplain : ∀ c ∈ "#define ".toList ++ (name ++ [' ']), Plain c ∧ c ≠ '\n' := by
    intro c hc
    rcases List.mem_append.1 hc with hc | hc
    · have hall : ("#define ".toList.all fun c => decide (Plain c ∧ c ≠ '\n')) = true := by decide
      exact of_decide_eq_true (List.all_eq_true.1 hall c hc)
    · rcases List.mem_append.1 hc with hc | hc
      · refine ⟨plain_of_isNameChar (hname.2 c hc), ?_⟩
        rintro rfl
        cases hname.2 _ hc
      · rw [List.mem_singleton.1 hc]
        exact ⟨by decide, by decide⟩
  have hassoc : "#define ".toList ++ (name ++ ' ' :: value) = "#define ".toList ++ (name ++ [' ']) ++ value := by simp
  have hnoline : '\n' ∉ "#define ".toList ++ (name ++ ' ' :: value) := by
    rw [hassoc, List.mem_append, not_or]
    exact ⟨fun hmem => (hplain _ hmem).2 rfl, hline⟩
  refine .of_line (m := some (name, value)) hnoline ?_ (fun rest => ?_) hnoline (readLine_define hname hhead)
  · obtain ⟨d, hd, -⟩ := hhead
    obtain ⟨vs, rfl⟩ := List.head?_eq_some_iff.1 hd
    rw [hassoc, List.getLast?_append_of_ne_nil _ (List.cons_ne_nil _ _)]
    exact hlast
  · rw [hassoc, List.append_assoc, uncomment_plain fun c hc => (hplain c hc).1, huncomment, Option.map_map]
    apply congrFun
    apply congrArg
    funext t
    exact (List.append_assoc _ _ _).symm

end Vedruino.CMacros
