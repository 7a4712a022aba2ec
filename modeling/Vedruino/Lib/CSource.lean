import Vedruino.Lib.CLiteral

/-!
# Tokens of C source

A source as the sequence of its tokens, with the comments among them. Whatever is not a comment, an identifier, a number or a string literal is taken one character at a time.
-/

namespace Vedruino.CSource

inductive Token
  | comment
  | ident (cs : List Char)
  | num (cs : List Char)
  | str (bs : List UInt8)
  | punct (c : Char)
  deriving DecidableEq, Repr

def isSpace (c : Char) : Bool := [' ', '\t', '\n', '\x0b', '\x0c', '\r'].contains c

def isIdentStart (c : Char) : Bool := ('a' ≤ c && c ≤ 'z') || ('A' ≤ c && c ≤ 'Z') || c == '_'

def isIdentChar (c : Char) : Bool := isIdentStart c || c.isDigit

/-- What follows the end of a comment. -/
def afterComment : List Char → Option (List Char)
  | '*' :: '/' :: cs => some cs
  | _ :: cs => afterComment cs
  | [] => none

private theorem length_lt_of_afterComment {cs rest : List Char} (h : afterComment cs = some rest) : rest.length < cs.length := by
  fun_induction afterComment cs with
  | case1 cs =>
    cases h
    rw [List.length_cons, List.length_cons]
    omega
  | case2 c cs _ ih =>
    have hlt := ih h
    rw [List.length_cons]
    omega
  | case3 => cases h

private theorem length_lt_of_chars {cs rest : List Char} {bs : List UInt8} (h : CLiteral.chars cs = some (bs, rest)) :
    rest.length < cs.length := by
  fun_induction CLiteral.chars cs generalizing bs rest with
  | case2 cs =>
    cases h
    rw [List.length_cons]
    omega
  | case5 cs bs' rest' hescape _ _ ih =>
    obtain ⟨r, hchars, heq⟩ := Option.map_eq_some_iff.1 h
    have hlt := CLiteral.length_lt_of_escape hescape
    have hrest := ih hchars
    cases heq
    rw [List.length_cons]
    omega
  | case6 c cs _ _ _ ih =>
    obtain ⟨r, hchars, heq⟩ := Option.map_eq_some_iff.1 h
    have hrest := ih hchars
    cases heq
    rw [List.length_cons]
    omega
  | _ => cases h

theorem length_dropWhile_lt (p : Char → Bool) (c : Char) (cs : List Char) : (cs.dropWhile p).length < (c :: cs).length :=
  Nat.lt_succ_of_le (List.dropWhile_suffix p).length_le

def lex : List Char → Option (List Token)
  | [] => some []
  | c :: cs =>
    if isSpace c then lex cs
    else if isIdentStart c then (lex (cs.dropWhile isIdentChar)).map fun ts => .ident (c :: cs.takeWhile isIdentChar) :: ts
    else if c.isDigit then (lex (cs.dropWhile isIdentChar)).map fun ts => .num (c :: cs.takeWhile isIdentChar) :: ts
    else if c = '"' then
      match _h : CLiteral.chars cs with
      | none => none
      | some (bs, rest) => (lex rest).map fun ts => .str bs :: ts
    else if c = '/' ∧ cs.head? = some '*' then
      match _h : afterComment cs.tail with
      | none => none
      | some rest => (lex rest).map fun ts => .comment :: ts
    else if c = '/' ∧ cs.head? = some '/' then (lex (cs.dropWhile (· != '\n'))).map fun ts => .comment :: ts
    else (lex cs).map fun ts => .punct c :: ts
termination_by cs => cs.length
decreasing_by
  · exact Nat.lt_succ_self _
  · exact length_dropWhile_lt _ c cs
  · exact length_dropWhile_lt _ c cs
  · exact Nat.lt_succ_of_lt (length_lt_of_chars _h)
  · have hlt := length_lt_of_afterComment _h
    rw [List.length_tail] at hlt
    rw [List.length_cons]
    omega
  · exact length_dropWhile_lt _ c cs
  · exact Nat.lt_succ_self _

/-- Neither a comment nor a string, in which any character may stand, nor a star. -/
def Token.Plain : Token → Prop
  | .ident _ | .num _ => True
  | .punct c => c ≠ '*'
  | .comment | .str _ => False

private theorem mem_dropWhile {p : Char → Bool} {c : Char} {cs : List Char} (hp : p c = false) (h : c ∈ cs) : c ∈ cs.dropWhile p := by
  rw [← List.takeWhile_append_dropWhile (p := p) (l := cs), List.mem_append] at h
  rcases h with h | h
  · have htrue := List.all_eq_true.1 List.all_takeWhile c h
    rw [hp] at htrue
    cases htrue
  · exact h

private theorem star_mem_of_cons {p : Char → Bool} {c : Char} {cs : List Char} (hstar : p '*' = false) (hc : p c = true)
    (h : '*' ∈ c :: cs) : '*' ∈ cs := by
  refine (List.mem_cons.1 h).resolve_left ?_
  rintro rfl
  rw [hstar] at hc
  cases hc

/-- A star is in a comment, in a string or a token of its own. -/
theorem exists_not_plain {cs : List Char} {ts : List Token} (h : lex cs = some ts) (hstar : '*' ∈ cs) : ∃ t ∈ ts, ¬ t.Plain := by
  have hcons {t : Token} {us : List Token} (hus : ∃ u ∈ us, ¬ u.Plain) : ∃ u ∈ t :: us, ¬ u.Plain := by
    obtain ⟨u, hu, hplain⟩ := hus
    exact ⟨u, List.mem_cons_of_mem t hu, hplain⟩
  fun_induction lex cs generalizing ts with
  | case1 => cases hstar
  | case2 c cs hc ih => exact ih h (star_mem_of_cons (by decide) hc hstar)
  | case3 c cs _ hc ih =>
    obtain ⟨us, hlex, rfl⟩ := Option.map_eq_some_iff.1 h
    exact hcons (ih hlex (mem_dropWhile (by decide) (star_mem_of_cons (by decide) hc hstar)))
  | case4 c cs _ _ hc ih =>
    obtain ⟨us, hlex, rfl⟩ := Option.map_eq_some_iff.1 h
    exact hcons (ih hlex (mem_dropWhile (by decide) (star_mem_of_cons (by decide) hc hstar)))
  | case6 =>
    obtain ⟨us, hlex, rfl⟩ := Option.map_eq_some_iff.1 h
    exact ⟨_, List.mem_cons_self, id⟩
  | case8 =>
    obtain ⟨us, hlex, rfl⟩ := Option.map_eq_some_iff.1 h
    exact ⟨_, List.mem_cons_self, id⟩
  | case9 =>
    obtain ⟨us, hlex, rfl⟩ := Option.map_eq_some_iff.1 h
    exact ⟨_, List.mem_cons_self, id⟩
  | case10 c cs _ _ _ _ _ _ ih =>
    obtain ⟨us, hlex, rfl⟩ := Option.map_eq_some_iff.1 h
    rcases List.mem_cons.1 hstar with rfl | hstar
    · exact ⟨_, List.mem_cons_self, fun hne => hne rfl⟩
    · exact hcons (ih hlex hstar)
  | _ => cases h

/-! ### Reading what is written -/

theorem lex_space {c : Char} (hc : isSpace c = true) (cs : List Char) : lex (c :: cs) = lex cs := by rw [lex, if_pos hc]

theorem afterComment_cons {c : Char} {cs : List Char} (h : ¬ ['*', '/'] <+: c :: cs) :
    afterComment (c :: cs) = afterComment cs := by
  rw [afterComment]
  rintro cs' rfl rfl
  exact h ⟨cs', rfl⟩

/-- With a character between, what comes after does not make the end of a comment. -/
theorem isPrefix_of_append {c d : Char} {cs rest : List Char} (h : ['*', '/'] <+: c :: (d :: cs ++ rest)) :
    ['*', '/'] <+: c :: d :: cs := by
  rw [List.cons_append, List.cons_prefix_cons, List.cons_prefix_cons] at h
  obtain ⟨rfl, rfl, -⟩ := h
  exact ⟨cs, rfl⟩

/-- A comment ends at the first star and slash. -/
theorem afterComment_append {cs : List Char} (h : ¬ ['*', '/'] <:+: cs) (rest : List Char) :
    afterComment (cs ++ '*' :: '/' :: rest) = some rest := by
  induction cs with
  | nil => rfl
  | cons c cs ih =>
    obtain ⟨hfirst, hrest⟩ := not_or.1 (mt List.infix_cons_iff.2 h)
    rw [List.cons_append, afterComment_cons]
    · exact ih hrest
    · intro hprefix
      apply hfirst
      cases cs with
      | nil =>
        rw [List.nil_append, List.cons_prefix_cons, List.cons_prefix_cons] at hprefix
        exact absurd hprefix.2.1 (by decide)
      | cons d cs => exact isPrefix_of_append hprefix

/-- It does not go beyond a star and slash inside. -/
theorem afterComment_of_infix {cs : List Char} (h : ['*', '/'] <:+: cs) (rest : List Char) :
    ∃ cs', afterComment (cs ++ rest) = some (cs' ++ rest) := by
  induction cs with
  | nil => exact absurd (List.infix_nil.1 h) (List.cons_ne_nil _ _)
  | cons c cs ih =>
    by_cases hfirst : ['*', '/'] <+: c :: cs
    · obtain ⟨cs', heq⟩ := hfirst
      cases heq
      exact ⟨cs', rfl⟩
    · have hrest := (List.infix_cons_iff.1 h).resolve_left hfirst
      obtain ⟨cs', hcs⟩ := ih hrest
      refine ⟨cs', ?_⟩
      rw [List.cons_append, afterComment_cons, hcs]
      intro hprefix
      apply hfirst
      cases cs with
      | nil => exact absurd (List.infix_nil.1 hrest) (List.cons_ne_nil _ _)
      | cons d cs => exact isPrefix_of_append hprefix

theorem lex_comment {cs rest : List Char} (h : afterComment cs = some rest) :
    lex ('/' :: '*' :: cs) = (lex rest).map fun ts => .comment :: ts := by
  rw [lex, if_neg (by decide), if_neg (by decide), if_neg (by decide), if_neg (by decide), if_pos ⟨rfl, rfl⟩]
  split
  next hnone => cases hnone.symm.trans h
  next rest' hsome =>
    cases hsome.symm.trans h
    rfl

theorem not_space_of_isIdentChar {c : Char} (hc : isIdentChar c = true) : ¬ isSpace c = true := by
  intro hspace
  simp only [isSpace, List.contains_iff_mem, List.mem_cons, List.not_mem_nil, or_false] at hspace
  rcases hspace with rfl | rfl | rfl | rfl | rfl | rfl <;> exact Bool.noConfusion hc

theorem isIdentChar_of_isIdentStart {c : Char} (hc : isIdentStart c = true) : isIdentChar c = true := by
  rw [isIdentChar, hc, Bool.true_or]

theorem isIdentChar_of_isDigit {c : Char} (hc : c.isDigit = true) : isIdentChar c = true := by
  rw [isIdentChar, hc, Bool.or_true]

theorem lex_ident {c : Char} {cs rest : List Char} (hc : isIdentStart c = true) (hcs : ∀ d ∈ cs, isIdentChar d = true)
    (hrest : ∀ d ∈ rest.head?, isIdentChar d = false) :
    lex (c :: cs ++ rest) = (lex rest).map fun ts => .ident (c :: cs) :: ts := by
  have hchar := isIdentChar_of_isIdentStart hc
  obtain ⟨htake, hdrop⟩ := CLiteral.span_append hcs hrest
  rw [List.cons_append, lex, if_neg (not_space_of_isIdentChar hchar), if_pos hc, htake, hdrop]

private theorem lex_num {c : Char} {cs rest : List Char} (hc : c.isDigit = true) (hcs : ∀ d ∈ cs, isIdentChar d = true)
    (hrest : ∀ d ∈ rest.head?, isIdentChar d = false) :
    lex (c :: cs ++ rest) = (lex rest).map fun ts => .num (c :: cs) :: ts := by
  have hchar := isIdentChar_of_isDigit hc
  have hstart : ¬ isIdentStart c = true := by
    have hle : c ≤ '9' := of_decide_eq_true (Bool.and_eq_true_iff.1 hc).2
    simp only [isIdentStart, Bool.or_eq_true, Bool.and_eq_true, decide_eq_true_eq, beq_iff_eq]
    rintro ((⟨hlow, -⟩ | ⟨hlow, -⟩) | rfl)
    · exact absurd (Nat.le_trans hlow hle) (by decide)
    · exact absurd (Nat.le_trans hlow hle) (by decide)
    · exact absurd hle (by decide)
  obtain ⟨htake, hdrop⟩ := CLiteral.span_append hcs hrest
  rw [List.cons_append, lex, if_neg (not_space_of_isIdentChar hchar), if_neg hstart, if_pos hc, htake, hdrop]

theorem lex_punct {c : Char} (hspace : isSpace c = false) (hident : isIdentChar c = false) (hquote : c ≠ '"') (hslash : c ≠ '/')
    (cs : List Char) : lex (c :: cs) = (lex cs).map fun ts => .punct c :: ts := by
  have hstart : ¬ isIdentStart c = true := fun hc => by
    rw [isIdentChar_of_isIdentStart hc] at hident
    cases hident
  have hdigit : ¬ c.isDigit = true := fun hc => by
    rw [isIdentChar_of_isDigit hc] at hident
    cases hident
  rw [lex, if_neg (by rw [hspace]; exact Bool.noConfusion), if_neg hstart, if_neg hdigit, if_neg hquote,
    if_neg fun h => hslash h.1, if_neg fun h => hslash h.1]

/-! ### Arrays of characters -/

/-- Constants with commas between them. -/
def initializer : List (List Char) → List Token
  | [] => []
  | [n] => [.num n]
  | n :: ns => .num n :: .punct ',' :: initializer ns

/-- The definition of an array of characters by decimal constants. -/
def charArray (name : List Char) (values : List Nat) : List Token :=
  .ident "const".toList :: .ident "char".toList :: .ident name :: .punct '[' :: .punct ']' :: .punct '=' :: .punct '\x7b' ::
    (initializer (values.map (Nat.toDigits 10)) ++ [.punct '\x7d', .punct ';'])

/-- The source is a comment and the definition of an array that holds these bytes; a constant out of range is cut to its lowest byte. -/
def Defines (source name : List Char) (bytes : List UInt8) : Prop :=
  ∃ values : List Nat, lex source = some (.comment :: charArray name values) ∧ bytes = values.map UInt8.ofNat

theorem initializer_cons (n : List Char) {ns : List (List Char)} (hns : ns ≠ []) :
    initializer (n :: ns) = .num n :: .punct ',' :: initializer ns := by
  cases ns with
  | nil => exact absurd rfl hns
  | cons m ns => rfl

/-- The constants of an initializer. -/
def constants : List Token → List (List Char)
  | [] => []
  | .num n :: ts => n :: constants ts
  | _ :: ts => constants ts

private theorem constants_initializer (ns : List (List Char)) : constants (initializer ns) = ns := by
  fun_induction initializer ns with
  | case1 => rfl
  | case2 n => rfl
  | case3 n ns _ ih => exact congrArg (n :: ·) ih

theorem charArray_injective {name : List Char} {ms ns : List Nat} (h : charArray name ms = charArray name ns) : ms = ns := by
  simp only [charArray, List.cons.injEq, true_and, List.append_cancel_right_eq] at h
  have hdigits := congrArg constants h
  rw [constants_initializer, constants_initializer] at hdigits
  have hvalues := congrArg (List.map fun cs => Nat.ofDigitChars 10 cs 0) hdigits
  simpa only [List.map_map, Function.comp_def, Nat.ofDigitChars_ten_toDigits, List.map_id'] using hvalues

private theorem plain_initializer (ns : List (List Char)) : ∀ t ∈ initializer ns, t.Plain := by
  fun_induction initializer ns with
  | case1 => exact fun _ h => absurd h List.not_mem_nil
  | case2 n => exact List.forall_mem_singleton.2 trivial
  | case3 n ns _ ih => exact List.forall_mem_cons.2 ⟨trivial, List.forall_mem_cons.2 ⟨show ',' ≠ '*' by decide, ih⟩⟩

theorem plain_charArray (name : List Char) (values : List Nat) : ∀ t ∈ charArray name values, t.Plain := by
  intro t ht
  simp only [charArray, List.mem_cons, List.mem_append, List.not_mem_nil, or_false] at ht
  rcases ht with rfl | rfl | rfl | rfl | rfl | rfl | rfl | ht | rfl | rfl
  on_goal 8 => exact plain_initializer _ t ht
  all_goals simp [Token.Plain]

/-- The text of a constant before a comma or a brace. -/
theorem lex_toDigits (n : Nat) {rest : List Char} (hrest : ∀ c ∈ rest.head?, isIdentChar c = false) :
    lex (Nat.toDigits 10 n ++ rest) = (lex rest).map fun ts => .num (Nat.toDigits 10 n) :: ts := by
  have hdigit : ∀ c ∈ Nat.toDigits 10 n, c.isDigit = true := fun c hc => Nat.isDigit_of_mem_toDigits (by decide) (by decide) hc
  have hne : Nat.toDigits 10 n ≠ [] := Nat.toDigits_ne_nil
  revert hdigit hne
  cases Nat.toDigits 10 n with
  | nil => exact fun _ hne => absurd rfl hne
  | cons d ds =>
    intro hdigit _
    obtain ⟨hd, hds⟩ := List.forall_mem_cons.1 hdigit
    exact lex_num hd (fun c hc => isIdentChar_of_isDigit (hds c hc)) hrest

end Vedruino.CSource
