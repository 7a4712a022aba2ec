import Mathlib.Data.List.Basic
import Mathlib.Data.List.Infix
import Vedruino.Lwjson.Parse

/-!
# Reading the text

What each function of the parser reads from a text that a zero byte ends, said of the text alone. The last `out` bytes of the text are beyond the length that the parser was given.
-/

namespace Vedruino.Lwjson

variable {R : Type}

section

variable (out : Nat)

/-- What is left of the text after blanks. -/
def blanks : List UInt8 → List UInt8
  | [] => []
  | c :: s => if out < s.length + 1 ∧ isBlank c then blanks s else c :: s

def skip (s : List UInt8) : Option (List UInt8) := if out < (blanks out s).length then some (blanks out s) else none

/-- What follows a string after its opening quote, and the number of its characters with the ones counted before. -/
def string : List UInt8 → Nat → Option (List UInt8 × Nat)
  | [], _ => none
  | c :: s, n =>
    if s.length + 1 ≤ out then none
    else if c = ch '\\' then
      match s with
      | [] => none
      | e :: s =>
        if isSimpleEscape e then string s (n + 2)
        else if e = ch 'u' then
          match s with
          | a :: b :: c :: d :: s => if isHex a && isHex b && isHex c && isHex d then string s (n + 6) else none
          | _ => none
        else none
    else if c = ch '"' then some (s, n)
    else string s (n + 1)

/-- What follows a string, where it begins and its length. -/
def quoted (s : List UInt8) : Option (List UInt8 × List UInt8 × Nat) :=
  match skip out s with
  | some (c :: s) => if c = ch '"' then (string out s 0).map fun (rest, n) => (rest, s, n) else none
  | _ => none

def propertyName (s : List UInt8) : Option (List UInt8 × List UInt8 × Nat) :=
  (quoted out s).bind fun (s, name, n) =>
    match skip out s with
    | some (c :: s) => if c = ch ':' then (skip out s).map fun s => (s, name, n) else none
    | _ => none

def checkOpened (s : List UInt8) (type : LwjsonType) : Option (List UInt8) :=
  match skip out s with
  | some (c :: s) =>
    if (type = .object ∧ ¬ (c = ch '"' ∨ c = ch '\x7d')) ∨
        (type = .array ∧ ¬ ([ch '"', ch ']', ch '[', ch '\x7b', ch '-', ch 't', ch 'n', ch 'f'].contains c ∨ isDigit c)) then none
    else some (c :: s)
  | _ => none

end

section

variable [LwReal R]

open LwReal (ofInt)

def fraction (s : List UInt8) (realNum : R) : Option (List UInt8 × R) :=
  if s.takeWhile isDigit = [] then none
  else
    let exp := (s.takeWhile isDigit).foldl (fun exp _ => LwReal.mul exp (ofInt 10)) (ofInt 1)
    let decNum := (s.takeWhile isDigit).foldl pushDigit 0
    some (s.dropWhile isDigit, LwReal.add realNum (LwReal.div (ofInt decNum.toInt) exp))

/-- What follows a character that need not be there. -/
def afterChar (c : UInt8) : List UInt8 → List UInt8
  | [] => []
  | d :: s => if d = c then s else d :: s

def exponent (s : List UInt8) (realNum : R) : Option (List UInt8 × R) :=
  let isMinusExp := s.head? = some (ch '-')
  let s := afterChar (ch '+') (afterChar (ch '-') s)
  if s.takeWhile isDigit = [] then none
  else
    let expCnt := (s.takeWhile isDigit).foldl pushDigit 0
    let scale (r : R) : R := if isMinusExp then LwReal.div r (ofInt 10) else LwReal.mul r (ofInt 10)
    some (s.dropWhile isDigit, scale^[expCnt.toInt.toNat] realNum)

/-- The part of a number that a mark opens, if it is there. -/
def optionalPart (mark : UInt8 → Bool) (part : List UInt8 → R → Option (List UInt8 × R)) :
    List UInt8 × R × LwjsonType → Option (List UInt8 × R × LwjsonType)
  | ([], realNum, type) => some ([], realNum, type)
  | (c :: s, realNum, type) =>
    if mark c then (part s realNum).map fun (s, realNum) => (s, realNum, .numReal) else some (c :: s, realNum, type)

/-- What follows a number, and its token. -/
def number (s : List UInt8) : Option (List UInt8 × LwjsonType × U R) :=
  let isMinus := s.head? = some (ch '-')
  let s := afterChar (ch '-') s
  if s.takeWhile isDigit = [] then none
  else
    let intNum := (s.takeWhile isDigit).foldl pushDigit 0
    ((optionalPart isPoint fraction (s.dropWhile isDigit, ofInt intNum.toInt, .numInt)).bind
      (optionalPart isExpMark exponent)).map fun (s, realNum, type) =>
        (s, type, if type = .numInt then .numInt (if isMinus then -intNum else intNum)
          else .numReal (if isMinus then LwReal.neg realNum else realNum))

def name (s : List UInt8) (name : List UInt8) (type : LwjsonType) : Option (List UInt8 × LwjsonType × U R) :=
  if name.isPrefixOf s then some (s.drop name.length, type, .zero) else none

/-- What follows a scalar, and its token. -/
def scalar (out : Nat) : List UInt8 → Option (List UInt8 × LwjsonType × U R)
  | [] => none
  | c :: s =>
    if c = ch '"' then (quoted out (c :: s)).map fun (s, value, n) => (s, .string, .str value n)
    else if c = ch 't' then name (c :: s) [ch 't', ch 'r', ch 'u', ch 'e'] .true_
    else if c = ch 'f' then name (c :: s) [ch 'f', ch 'a', ch 'l', ch 's', ch 'e'] .false_
    else if c = ch 'n' then name (c :: s) [ch 'n', ch 'u', ch 'l', ch 'l'] .null
    else if c = ch '-' ∨ isDigit c then number (c :: s)
    else none

end

/-! ### The functions of the parser -/

/-- A value, or the code `lwjsonERRJSON`. -/
def orJson {α : Type} : Option α → Outcome α
  | none => .ret .errJson
  | some a => .ok a

@[simp] theorem orJson_some {α : Type} (a : α) : orJson (some a) = .ok a := rfl

variable {text junk s : List UInt8} {len : Nat}

private theorem inside_append (hs : s <:+ text) (hne : s ≠ []) :
    inside (text ++ 0 :: junk) len (s ++ 0 :: junk) ↔ text.length - len < s.length := by
  have hle := hs.length_le
  have hpos := List.length_pos_iff.2 hne
  rw [inside, List.length_append, List.length_append]
  omega

theorem inside_cons {c : UInt8} (hs : c :: s <:+ text) :
    inside (text ++ 0 :: junk) len (c :: (s ++ 0 :: junk)) ↔ text.length - len < s.length + 1 :=
  inside_append hs (List.cons_ne_nil c s)

theorem ne_zero_of_suffix {c : UInt8} (h0 : 0 ∉ text) (hs : c :: s <:+ text) : c ≠ 0 := by
  rintro rfl
  exact h0 (hs.subset List.mem_cons_self)

theorem suffix_of_cons {c : UInt8} (hs : c :: s <:+ text) : s <:+ text := (List.suffix_cons c s).trans hs

theorem blanks_suffix (out : Nat) (s : List UInt8) : blanks out s <:+ s := by
  induction s with
  | nil => exact List.suffix_refl _
  | cons c s ih =>
    rw [blanks]
    by_cases hc : out < s.length + 1 ∧ isBlank c = true
    · rw [if_pos hc]
      exact ih.trans (List.suffix_cons c s)
    · rw [if_neg hc]

/-- Blanks beyond the length stay. -/
theorem le_length_blanks {out : Nat} (h : out ≤ s.length) : out ≤ (blanks out s).length := by
  induction s with
  | nil => exact h
  | cons c s ih =>
    rw [blanks]
    by_cases hc : out < s.length + 1 ∧ isBlank c = true
    · rw [if_pos hc]
      exact ih (Nat.le_of_lt_succ hc.1)
    · rw [if_neg hc]
      exact h

private theorem skipBlanks_append (h0 : 0 ∉ text) (hs : s <:+ text) :
    skipBlanks (text ++ 0 :: junk) len (s ++ 0 :: junk) = some (blanks (text.length - len) s ++ 0 :: junk) := by
  induction s with
  | nil => rfl
  | cons c s ih =>
    have hc := ne_zero_of_suffix h0 hs
    rw [List.cons_append, skipBlanks, blanks]
    by_cases hblank : text.length - len < s.length + 1 ∧ isBlank c = true
    · rw [if_pos hblank, if_pos ⟨hc, (inside_cons hs).2 hblank.1, hblank.2⟩, ih (suffix_of_cons hs)]
    · rw [if_neg hblank, if_neg fun h => hblank ⟨(inside_cons hs).1 h.2.1, h.2.2⟩, List.cons_append]

theorem prvSkipBlank_append (h0 : 0 ∉ text) (hs : s <:+ text) :
    prvSkipBlank (text ++ 0 :: junk) len (s ++ 0 :: junk) =
      some (if text.length - len < (blanks (text.length - len) s).length then .ok else .errJson,
        blanks (text.length - len) s ++ 0 :: junk) := by
  have hblanks := (blanks_suffix (text.length - len) s).trans hs
  rw [prvSkipBlank, skipBlanks_append h0 hs]
  revert hblanks
  generalize blanks (text.length - len) s = t
  intro ht
  cases t with
  | nil =>
    rw [List.nil_append, List.length_nil, if_neg (Nat.not_lt_zero _)]
    dsimp only
    rw [if_neg fun h => h.1 rfl]
  | cons c t =>
    have hc := ne_zero_of_suffix h0 ht
    rw [List.cons_append]
    dsimp only
    by_cases hlive : text.length - len < (c :: t).length
    · rw [if_pos hlive, if_pos ⟨hc, (inside_cons ht).2 hlive⟩]
    · rw [if_neg hlive, if_neg fun h => hlive ((inside_cons ht).1 h.2)]

theorem skipBlank_append (h0 : 0 ∉ text) (hs : s <:+ text) :
    skipBlank (text ++ 0 :: junk) len (s ++ 0 :: junk) = orJson ((skip (text.length - len) s).map (· ++ 0 :: junk)) := by
  rw [skipBlank, prvSkipBlank_append h0 hs, skip]
  by_cases hlive : text.length - len < (blanks (text.length - len) s).length
  · rw [if_pos hlive, if_pos hlive]
    rfl
  · rw [if_neg hlive, if_neg hlive]
    rfl

/-- What is left after blanks is not empty. -/
theorem skip_spec {out : Nat} {t : List UInt8} (h : skip out s = some t) : t <:+ s ∧ out < t.length ∧ ∃ c u, t = c :: u := by
  rw [skip] at h
  by_cases hlive : out < (blanks out s).length
  · rw [if_pos hlive, Option.some.injEq] at h
    subst h
    exact ⟨blanks_suffix out s, hlive, List.exists_cons_of_length_pos (Nat.zero_lt_of_lt hlive)⟩
  · rw [if_neg hlive] at h
    cases h

/-- The loop reads on where the character before it is not the last. -/
theorem stringLoop_cons {c : UInt8} (h0 : 0 ∉ text) (hs : c :: s <:+ text) (hlive : ¬ s.length + 1 ≤ text.length - len) :
    ¬ (c = 0 ∨ ¬ inside (text ++ 0 :: junk) len (c :: (s ++ 0 :: junk))) := by
  rintro (hc | hc)
  · exact ne_zero_of_suffix h0 hs hc
  · exact hc ((inside_cons hs).2 (Nat.not_le.1 hlive))

private theorem not_isHex_zero : isHex 0 = false := rfl

private theorem all_isHex_append (s : List UInt8) : ¬ (s ++ 0 :: junk).all isHex = true := by
  rw [List.all_append, List.all_cons, not_isHex_zero, Bool.false_and, Bool.and_false]
  exact Bool.false_ne_true

/-- The zero byte at the end is no digit. -/
theorem not_hex_of_short (hshort : ∀ a b c d t, s = a :: b :: c :: d :: t → False) {a b c d : UInt8} {p : List UInt8}
    (h : s ++ 0 :: junk = a :: b :: c :: d :: p) : ¬ (isHex a && isHex b && isHex c && isHex d) = true := by
  rcases s with _ | ⟨a', _ | ⟨b', _ | ⟨c', _ | ⟨d', t⟩⟩⟩⟩
  · cases h
    simp [not_isHex_zero]
  · cases h
    simp [not_isHex_zero]
  · cases h
    simp [not_isHex_zero]
  · cases h
    simp [not_isHex_zero]
  · exact (hshort _ _ _ _ _ rfl).elim

private theorem stringLoop_append (h0 : 0 ∉ text) (hs : s <:+ text) (n : Nat) :
    stringLoop (text ++ 0 :: junk) len (s ++ 0 :: junk) n =
      orJson ((string (text.length - len) s n).map fun (t, n) => (t ++ 0 :: junk, n)) := by
  fun_induction string (text.length - len) s n with
  | case1 n =>
    rw [List.nil_append, stringLoop.eq_def]
    dsimp only
    rw [if_pos (.inl rfl)]
    rfl
  | case2 c s n hlive =>
    rw [List.cons_append, stringLoop.eq_def]
    dsimp only
    rw [if_pos (.inr fun h => Nat.not_lt.2 hlive ((inside_cons hs).1 h))]
    rfl
  | case3 n hlive =>
    rw [List.cons_append, stringLoop.eq_def]
    dsimp only
    rw [if_neg (stringLoop_cons h0 hs hlive), if_pos rfl]
    rfl
  | case4 n e s he hlive ih =>
    rw [List.cons_append, stringLoop.eq_def]
    dsimp only
    rw [if_neg (stringLoop_cons h0 hs hlive), if_pos rfl, List.cons_append]
    dsimp only
    rw [if_pos he, ih (suffix_of_cons (suffix_of_cons hs))]
  | case5 n a b c d s hhex hu hlive ih =>
    have hrest : s <:+ text :=
      suffix_of_cons (suffix_of_cons (suffix_of_cons (suffix_of_cons (suffix_of_cons (suffix_of_cons hs)))))
    rw [List.cons_append, stringLoop.eq_def]
    dsimp only
    rw [if_neg (stringLoop_cons h0 hs hlive), if_pos rfl]
    dsimp only [List.cons_append]
    rw [if_neg hu, if_pos rfl, if_pos hhex, ih hrest]
  | case6 n a b c d s hhex hu hlive =>
    rw [List.cons_append, stringLoop.eq_def]
    dsimp only
    rw [if_neg (stringLoop_cons h0 hs hlive), if_pos rfl]
    dsimp only [List.cons_append]
    rw [if_neg hu, if_pos rfl, if_neg hhex]
    rfl
  | case7 n s hshort hu hlive =>
    rw [List.cons_append, stringLoop.eq_def]
    dsimp only
    rw [if_neg (stringLoop_cons h0 hs hlive), if_pos rfl, List.cons_append]
    dsimp only
    rw [if_neg hu, if_pos rfl]
    split
    next heq => exact if_neg (not_hex_of_short hshort heq)
    next => exact if_neg (all_isHex_append s)
  | case8 n e s he hu hlive =>
    rw [List.cons_append, stringLoop.eq_def]
    dsimp only
    rw [if_neg (stringLoop_cons h0 hs hlive), if_pos rfl, List.cons_append]
    dsimp only
    rw [if_neg he, if_neg hu]
    rfl
  | case9 s n hlive hback =>
    rw [List.cons_append, stringLoop.eq_def]
    dsimp only
    rw [if_neg (stringLoop_cons h0 hs hlive), if_neg hback, if_pos rfl]
    rfl
  | case10 c s n hlive hback hquote ih =>
    rw [List.cons_append, stringLoop.eq_def]
    dsimp only
    rw [if_neg (stringLoop_cons h0 hs hlive), if_neg hback, if_neg hquote, ih (suffix_of_cons hs)]

/-- What follows a string is a shorter end of the text. -/
theorem string_suffix {out n m : Nat} {t : List UInt8} (h : string out s n = some (t, m)) : t <:+ s ∧ t.length < s.length := by
  fun_induction string out s n with
  | case4 n e s _ _ ih =>
    obtain ⟨hsuffix, hlt⟩ := ih h
    refine ⟨hsuffix.trans ⟨[ch '\\', e], rfl⟩, ?_⟩
    rw [List.length_cons, List.length_cons]
    omega
  | case5 n a b c d s _ _ _ ih =>
    obtain ⟨hsuffix, hlt⟩ := ih h
    refine ⟨hsuffix.trans ⟨[ch '\\', ch 'u', a, b, c, d], rfl⟩, ?_⟩
    simp only [List.length_cons]
    omega
  | case9 s =>
    cases h
    exact ⟨List.suffix_cons _ _, Nat.lt_succ_self _⟩
  | case10 c s _ _ _ _ ih =>
    obtain ⟨hsuffix, hlt⟩ := ih h
    exact ⟨hsuffix.trans (List.suffix_cons _ _), Nat.lt_succ_of_lt hlt⟩
  | _ => cases h

theorem prvParseString_append (h0 : 0 ∉ text) (hs : s <:+ text) :
    prvParseString (text ++ 0 :: junk) len (s ++ 0 :: junk) =
      orJson ((quoted (text.length - len) s).map fun (t, value, n) => (t ++ 0 :: junk, value ++ 0 :: junk, n)) := by
  rw [prvParseString, skipBlank_append h0 hs, quoted]
  cases hskip : skip (text.length - len) s with
  | none => rfl
  | some t =>
    obtain ⟨hsuffix, -, c, t, rfl⟩ := skip_spec hskip
    have hrest := suffix_of_cons (hsuffix.trans hs)
    simp only [Option.map_some, orJson_some, Outcome.ok_bind, List.cons_append, read_cons, List.tail_cons]
    by_cases hc : c = ch '"'
    · rw [if_neg (not_not_intro hc), if_pos hc, stringLoop_append h0 hrest]
      cases string (text.length - len) t 0 with
      | none => rfl
      | some => rfl
    · rw [if_pos hc, if_neg hc]
      rfl

theorem quoted_suffix {out n : Nat} {t value : List UInt8} (h : quoted out s = some (t, value, n)) :
    t <:+ s ∧ value <:+ s ∧ t.length < s.length := by
  rw [quoted] at h
  cases hskip : skip out s with
  | none =>
    rw [hskip] at h
    cases h
  | some u =>
    obtain ⟨hsuffix, -, c, u, rfl⟩ := skip_spec hskip
    have hlength := hsuffix.length_le
    rw [List.length_cons] at hlength
    rw [hskip] at h
    dsimp only at h
    by_cases hc : c = ch '"'
    · rw [if_pos hc, Option.map_eq_some_iff] at h
      obtain ⟨⟨t', n'⟩, hstring, heq⟩ := h
      cases heq
      obtain ⟨hrest, hlt⟩ := string_suffix hstring
      have hvalue := suffix_of_cons hsuffix
      exact ⟨hrest.trans hvalue, hvalue, Nat.lt_of_lt_of_le hlt (Nat.le_of_succ_le hlength)⟩
    · rw [if_neg hc] at h
      cases h

theorem prvParsePropertyName_append (h0 : 0 ∉ text) (hs : s <:+ text) :
    prvParsePropertyName (text ++ 0 :: junk) len (s ++ 0 :: junk) =
      orJson ((propertyName (text.length - len) s).map fun (t, name, n) => (t ++ 0 :: junk, name ++ 0 :: junk, n)) := by
  rw [prvParsePropertyName, prvParseString_append h0 hs, propertyName]
  cases hquoted : quoted (text.length - len) s with
  | none => rfl
  | some r =>
    obtain ⟨t, name, n⟩ := r
    have ht := (quoted_suffix hquoted).1.trans hs
    simp only [Option.map_some, orJson_some, Outcome.ok_bind, Option.bind_some, skipBlank_append h0 ht]
    cases hskip : skip (text.length - len) t with
    | none => rfl
    | some u =>
      obtain ⟨hsuffix, -, c, u, rfl⟩ := skip_spec hskip
      have hu := suffix_of_cons (hsuffix.trans ht)
      simp only [Option.map_some, orJson_some, Outcome.ok_bind, List.cons_append, read_cons, List.tail_cons]
      by_cases hc : c = ch ':'
      · rw [if_neg (not_not_intro hc), if_pos hc, skipBlank_append h0 hu]
        cases skip (text.length - len) u with
        | none => rfl
        | some => rfl
      · rw [if_pos hc, if_neg hc]
        rfl

theorem propertyName_suffix {out n : Nat} {t name : List UInt8} (h : propertyName out s = some (t, name, n)) :
    t <:+ s ∧ name <:+ s ∧ t.length < s.length ∧ out < t.length := by
  rw [propertyName, Option.bind_eq_some_iff] at h
  obtain ⟨⟨u, name', n'⟩, hquoted, h⟩ := h
  obtain ⟨hu, hname, hlt⟩ := quoted_suffix hquoted
  dsimp only at h
  cases hskip : skip out u with
  | none =>
    rw [hskip] at h
    cases h
  | some v =>
    obtain ⟨hv, -, c, v, rfl⟩ := skip_spec hskip
    rw [hskip] at h
    dsimp only at h
    by_cases hc : c = ch ':'
    · rw [if_pos hc, Option.map_eq_some_iff] at h
      obtain ⟨w, hw, heq⟩ := h
      cases heq
      obtain ⟨hsuffix, hlive, -⟩ := skip_spec hw
      have ht := hsuffix.trans (suffix_of_cons hv)
      have hle := ht.length_le
      exact ⟨ht.trans hu, hname, by omega, hlive⟩
    · rw [if_neg hc] at h
      cases h

theorem prvCheckValidCharAfterOpenBracket_append (h0 : 0 ∉ text) (hs : s <:+ text) (type : LwjsonType) :
    prvCheckValidCharAfterOpenBracket (text ++ 0 :: junk) len (s ++ 0 :: junk) type =
      orJson ((checkOpened (text.length - len) s type).map (· ++ 0 :: junk)) := by
  rw [prvCheckValidCharAfterOpenBracket, skipBlank_append h0 hs, checkOpened]
  cases hskip : skip (text.length - len) s with
  | none => rfl
  | some t =>
    obtain ⟨hsuffix, -, c, t, rfl⟩ := skip_spec hskip
    have hc := ne_zero_of_suffix h0 (hsuffix.trans hs)
    simp only [Option.map_some, orJson_some, Outcome.ok_bind, List.cons_append, read_cons, hc, false_or]
    split
    · rfl
    · rfl

theorem checkOpened_suffix {out : Nat} {t : List UInt8} {type : LwjsonType} (h : checkOpened out s type = some t) : t <:+ s := by
  rw [checkOpened] at h
  cases hskip : skip out s with
  | none =>
    rw [hskip] at h
    cases h
  | some u =>
    obtain ⟨hsuffix, -, c, u, rfl⟩ := skip_spec hskip
    rw [hskip] at h
    dsimp only at h
    split at h
    · cases h
    · cases h
      exact hsuffix

/-! ### Numbers -/

theorem digits_append (s : List UInt8) (n : BitVec 64) :
    digits (s ++ 0 :: junk) n = .ok (s.dropWhile isDigit ++ 0 :: junk, (s.takeWhile isDigit).foldl pushDigit n) := by
  induction s generalizing n with
  | nil => rfl
  | cons c s ih =>
    rw [List.cons_append, digits]
    cases hc : isDigit c with
    | true => rw [if_pos rfl, ih, List.dropWhile_cons_of_pos hc, List.takeWhile_cons_of_pos hc, List.foldl_cons]
    | false =>
      rw [if_neg Bool.false_ne_true, List.dropWhile_cons_of_neg (Bool.not_eq_true _ ▸ hc),
        List.takeWhile_cons_of_neg (Bool.not_eq_true _ ▸ hc), List.foldl_nil, List.cons_append]

section

variable [LwReal R]

private theorem decimals_append (s : List UInt8) (exp : R) (n : BitVec 64) :
    decimals (s ++ 0 :: junk) exp n =
      .ok (s.dropWhile isDigit ++ 0 :: junk, (s.takeWhile isDigit).foldl (fun exp _ => LwReal.mul exp (LwReal.ofInt 10)) exp,
        (s.takeWhile isDigit).foldl pushDigit n) := by
  induction s generalizing exp n with
  | nil => rfl
  | cons c s ih =>
    rw [List.cons_append, decimals]
    cases hc : isDigit c with
    | true =>
      rw [if_pos rfl, ih, List.dropWhile_cons_of_pos hc, List.takeWhile_cons_of_pos hc, List.foldl_cons, List.foldl_cons]
    | false =>
      rw [if_neg Bool.false_ne_true, List.dropWhile_cons_of_neg (Bool.not_eq_true _ ▸ hc),
        List.takeWhile_cons_of_neg (Bool.not_eq_true _ ▸ hc), List.foldl_nil, List.foldl_nil, List.cons_append]

/-- The character under the pointer, zero at the end of the text. -/
theorem read_append (s : List UInt8) : read (s ++ 0 :: junk) = .ok (s.head?.getD 0) := by cases s <;> rfl

theorem head_eq_iff {c : UInt8} (hc : c ≠ 0) (s : List UInt8) : s.head?.getD 0 = c ↔ s.head? = some c := by
  cases s with
  | nil => simp [Ne.symm hc]
  | cons d s => simp

theorem tail_append (c : UInt8) (s : List UInt8) :
    (if s.head? = some c then (s ++ 0 :: junk).tail else s ++ 0 :: junk) = afterChar c s ++ 0 :: junk := by
  cases s with
  | nil => simp [afterChar]
  | cons d s => by_cases hd : d = c <;> simp [afterChar, hd]

theorem isDigit_head (s : List UInt8) : isDigit (s.head?.getD 0) = false ↔ s.takeWhile isDigit = [] := by
  cases s with
  | nil => simp [isDigit]
  | cons c s => cases hc : isDigit c <;> simp [hc]

private theorem parseFraction_append (s : List UInt8) (realNum : R) :
    parseFraction (s ++ 0 :: junk) realNum = orJson ((fraction s realNum).map fun (t, x) => (t ++ 0 :: junk, x)) := by
  simp only [parseFraction, fraction, read_append, Outcome.ok_bind]
  by_cases hs : s.takeWhile isDigit = []
  · rw [if_pos hs, (isDigit_head s).2 hs]
    rfl
  · have hdigit := eq_true_of_ne_false (mt (isDigit_head s).1 hs)
    rw [if_neg hs, hdigit, decimals_append]
    rfl

private theorem parseExponent_append (s : List UInt8) (realNum : R) :
    parseExponent (s ++ 0 :: junk) realNum = orJson ((exponent s realNum).map fun (t, x) => (t ++ 0 :: junk, x)) := by
  have hminus : ch '-' ≠ 0 := by decide
  have hplus : ch '+' ≠ 0 := by decide
  simp only [parseExponent, exponent, read_append, Outcome.ok_bind, head_eq_iff hminus, head_eq_iff hplus, tail_append]
  generalize afterChar (ch '+') (afterChar (ch '-') s) = t
  by_cases ht : t.takeWhile isDigit = []
  · rw [if_pos ht, (isDigit_head t).2 ht]
    rfl
  · have hdigit := eq_true_of_ne_false (mt (isDigit_head t).1 ht)
    rw [if_neg ht, hdigit, digits_append]
    rfl

omit [LwReal R] in
theorem parsePart_append {mark : UInt8 → Bool} {part : List UInt8 → R → Option (List UInt8 × R)}
    {parse : List UInt8 → R → Outcome (List UInt8 × R)} (hmark : mark 0 = false)
    (hpart : ∀ s x, parse (s ++ 0 :: junk) x = orJson ((part s x).map fun (t, x) => (t ++ 0 :: junk, x)))
    (s : List UInt8) (x : R) (type : LwjsonType) :
    parsePart mark parse (s ++ 0 :: junk) x type =
      orJson ((optionalPart mark part (s, x, type)).map fun (t, y) => (t ++ 0 :: junk, y)) := by
  cases s with
  | nil =>
    rw [List.nil_append, parsePart, read_cons, Outcome.ok_bind, hmark]
    rfl
  | cons c s =>
    rw [List.cons_append, parsePart, read_cons, Outcome.ok_bind, List.tail_cons, optionalPart]
    cases mark c with
    | false => rfl
    | true =>
      rw [if_pos rfl, if_pos rfl, hpart]
      cases part s x with
      | none => rfl
      | some => rfl

/-- The check fails where no digit stands. -/
theorem invalidStart_iff (c c₁ : UInt8) :
    (c = 0 ∨ c < ch '0' ∨ ch '9' < c ∨ (c = ch '0' ∧ c₁ < ch '0' ∧ ch '9' < c₁)) ↔ isDigit c = false := by
  rw [isDigit, Bool.and_eq_false_iff, decide_eq_false_iff_not, decide_eq_false_iff_not, UInt8.not_le, UInt8.not_le]
  constructor
  · rintro (rfl | hlt | hlt | ⟨-, hlt, hgt⟩)
    · exact .inl (by decide)
    · exact .inl hlt
    · exact .inr hlt
    · exact absurd (UInt8.lt_trans hgt hlt) (by decide)
  · rintro (hlt | hlt)
    · exact .inr (.inl hlt)
    · exact .inr (.inr (.inl hlt))

private theorem isInvalidStart_append (s : List UInt8) :
    isInvalidStart (s ++ 0 :: junk) = .ok (decide (s.takeWhile isDigit = [])) := by
  rw [isInvalidStart, read_append, Outcome.ok_bind]
  by_cases hzero : s.head?.getD 0 = ch '0'
  · rw [if_pos hzero]
    cases s with
    | nil => exact absurd hzero (by decide)
    | cons c s =>
      rw [List.cons_append, List.tail_cons, read_append, Outcome.ok_bind]
      exact congrArg Outcome.ok (decide_eq_decide.2 ((invalidStart_iff _ _).trans (isDigit_head (c :: s))))
  · rw [if_neg hzero]
    exact congrArg Outcome.ok (decide_eq_decide.2 ((invalidStart_iff _ _).trans (isDigit_head s)))

private theorem not_isBlank_of_number {c : UInt8} (hc : c = ch '-' ∨ isDigit c = true) : isBlank c = false := by
  cases hblank : isBlank c with
  | false => rfl
  | true =>
    simp only [isBlank, List.contains_iff_mem, List.mem_cons, List.not_mem_nil, or_false] at hblank
    rcases hblank with rfl | rfl | rfl | rfl | rfl <;> revert hc <;> decide

theorem prvParseNumber_append (h0 : 0 ∉ text) {c : UInt8} (hs : c :: s <:+ text) (hlive : text.length - len < s.length + 1)
    (hc : c = ch '-' ∨ isDigit c = true) :
    prvParseNumber (text ++ 0 :: junk) len (c :: s ++ 0 :: junk) =
      orJson ((number (c :: s)).map fun (t, x) => (t ++ 0 :: junk, (x : LwjsonType × U R))) := by
  have hskip : skip (text.length - len) (c :: s) = some (c :: s) := by
    have hblanks : blanks (text.length - len) (c :: s) = c :: s := by
      rw [blanks, not_isBlank_of_number hc]
      exact if_neg fun h => Bool.false_ne_true h.2
    rw [skip, hblanks]
    exact if_pos hlive
  have hgo : ¬ (c = 0 ∨ ¬ inside (text ++ 0 :: junk) len (c :: (s ++ 0 :: junk))) := by
    rintro (hzero | hinside)
    · exact ne_zero_of_suffix h0 hs hzero
    · exact hinside ((inside_cons hs).2 hlive)
  have htail : (if c = ch '-' then (c :: s ++ 0 :: junk).tail else c :: s ++ 0 :: junk) = afterChar (ch '-') (c :: s) ++ 0 :: junk := by
    rw [← tail_append]
    simp only [List.head?_cons, Option.some.injEq]
  rw [prvParseNumber, skipBlank_append h0 hs, hskip, Option.map_some, orJson_some, Outcome.ok_bind, List.cons_append,
    read_cons, Outcome.ok_bind, if_neg hgo]
  dsimp only
  rw [← List.cons_append, htail, isInvalidStart_append, Outcome.ok_bind]
  simp only [number, List.head?_cons, Option.some.injEq, decide_eq_true_eq]
  generalize afterChar (ch '-') (c :: s) = t
  by_cases ht : t.takeWhile isDigit = []
  · rw [if_pos ht, if_pos ht]
    rfl
  · rw [if_neg ht, if_neg ht, digits_append, Outcome.ok_bind, parsePart_append rfl parseFraction_append]
    cases optionalPart isPoint fraction (t.dropWhile isDigit, (LwReal.ofInt (BitVec.toInt (List.foldl pushDigit 0 (t.takeWhile isDigit))) : R), .numInt) with
    | none => rfl
    | some r =>
      obtain ⟨u, x, type⟩ := r
      rw [Option.map_some, orJson_some, Outcome.ok_bind, parsePart_append rfl parseExponent_append]
      cases hexp : optionalPart isExpMark exponent (u, x, type) with
      | none =>
        simp only [Option.bind_some, hexp]
        rfl
      | some r => simp [hexp]

private theorem strncmp_append {name : List UInt8} (hname : 0 ∉ name) (h0 : 0 ∉ s) :
    strncmp name.length (s ++ 0 :: junk) (name ++ [0]) = .ok (name.isPrefixOf s) := by
  induction name generalizing s with
  | nil => rfl
  | cons c name ih =>
    rw [List.mem_cons, not_or] at hname
    cases s with
    | nil =>
      rw [List.nil_append, List.cons_append, List.length_cons, strncmp, if_neg hname.1]
      rfl
    | cons d s =>
      rw [List.mem_cons, not_or] at h0
      rw [List.cons_append, List.cons_append, List.length_cons, strncmp, List.isPrefixOf]
      by_cases hd : d = c
      · rw [if_pos hd, if_neg (Ne.symm h0.1), ih hname.2 h0.2, hd, BEq.rfl, Bool.true_and]
      · rw [if_neg hd, beq_false_of_ne (Ne.symm hd), Bool.false_and]

omit [LwReal R] in
theorem parseName_append {names : List UInt8} (hnames : 0 ∉ names) (h0 : 0 ∉ s) (type : LwjsonType) :
    parseName (s ++ 0 :: junk) names type = orJson ((name s names type).map fun (t, x) => (t ++ 0 :: junk, (x : LwjsonType × U R))) := by
  rw [parseName, strncmp_append hnames h0, Outcome.ok_bind, name]
  by_cases hprefix : names.isPrefixOf s = true
  · rw [if_pos hprefix, if_pos hprefix, List.drop_append_of_le_length (List.isPrefixOf_iff_prefix.1 hprefix).length_le]
    rfl
  · rw [if_neg hprefix, if_neg hprefix]
    rfl

/-- A token's union with the pointer into the text moved to the memory. -/
def U.inMemory (junk : List UInt8) : U R → U R
  | .str value n => .str (value ++ 0 :: junk) n
  | u => u

private theorem number_inMemory {t : List UInt8} {type : LwjsonType} {u : U R} (h : number s = some (t, type, u)) : u.inMemory junk = u := by
  rw [number] at h
  split at h
  · cases h
  · rw [Option.map_eq_some_iff] at h
    obtain ⟨⟨v, x, type'⟩, -, heq⟩ := h
    cases heq
    split <;> rfl

theorem parseScalar_append (h0 : 0 ∉ text) {c : UInt8} (hs : c :: s <:+ text) (hlive : text.length - len < s.length + 1) :
    parseScalar (text ++ 0 :: junk) len (c :: s ++ 0 :: junk) c =
      orJson ((scalar (text.length - len) (c :: s)).map fun (t, type, u) => (t ++ 0 :: junk, type, (u : U R).inMemory junk)) := by
  have h0s : 0 ∉ c :: s := fun h => h0 (hs.subset h)
  have hname (names : List UInt8) (hnames : 0 ∉ names) (type : LwjsonType) :
      parseName (c :: s ++ 0 :: junk) names type =
        orJson ((name (c :: s) names type).map fun (t, type, u) => (t ++ 0 :: junk, type, (u : U R).inMemory junk)) := by
    rw [parseName_append hnames h0s, name]
    split <;> rfl
  rw [parseScalar, scalar]
  by_cases hquote : c = ch '"'
  · rw [if_pos hquote, if_pos hquote, prvParseString_append h0 hs]
    cases quoted (text.length - len) (c :: s) with
    | none => rfl
    | some => rfl
  rw [if_neg hquote, if_neg hquote]
  by_cases ht : c = ch 't'
  · rw [if_pos ht, if_pos ht, hname _ (by decide)]
  rw [if_neg ht, if_neg ht]
  by_cases hf : c = ch 'f'
  · rw [if_pos hf, if_pos hf, hname _ (by decide)]
  rw [if_neg hf, if_neg hf]
  by_cases hn : c = ch 'n'
  · rw [if_pos hn, if_pos hn, hname _ (by decide)]
  rw [if_neg hn, if_neg hn]
  by_cases hnum : c = ch '-' ∨ isDigit c = true
  · rw [if_pos hnum, if_pos hnum, prvParseNumber_append h0 hs hlive hnum]
    cases hnumber : number (R := R) (c :: s) with
    | none => rfl
    | some r =>
      obtain ⟨t, type, u⟩ := r
      rw [Option.map_some, Option.map_some]
      dsimp only
      rw [number_inMemory hnumber]
      rfl
  · rw [if_neg hnum, if_neg hnum]
    rfl

/-! ### What is left of the text -/

theorem afterChar_suffix (c : UInt8) (s : List UInt8) : afterChar c s <:+ s := by
  cases s with
  | nil => exact List.suffix_refl _
  | cons d s =>
    rw [afterChar]
    split
    · exact List.suffix_cons d s
    · exact List.suffix_refl _

private theorem fraction_suffix {x y : R} {t : List UInt8} (h : fraction s x = some (t, y)) : t <:+ s := by
  rw [fraction] at h
  split at h
  · cases h
  · cases h
    exact List.dropWhile_suffix _

private theorem exponent_suffix {x y : R} {t : List UInt8} (h : exponent s x = some (t, y)) : t <:+ s := by
  rw [exponent] at h
  dsimp only at h
  split at h
  · cases h
  · cases h
    exact (List.dropWhile_suffix _).trans ((afterChar_suffix _ _).trans (afterChar_suffix _ _))

omit [LwReal R] in
theorem optionalPart_suffix {mark : UInt8 → Bool} {part : List UInt8 → R → Option (List UInt8 × R)}
    (hpart : ∀ {s x t y}, part s x = some (t, y) → t <:+ s) {r r' : List UInt8 × R × LwjsonType}
    (h : optionalPart mark part r = some r') : r'.1 <:+ r.1 ∧ (r'.2.2 = r.2.2 ∨ r'.2.2 = .numReal) := by
  obtain ⟨s, x, type⟩ := r
  cases s with
  | nil =>
    cases h
    exact ⟨List.suffix_refl _, .inl rfl⟩
  | cons c s =>
    rw [optionalPart] at h
    split at h
    · rw [Option.map_eq_some_iff] at h
      obtain ⟨⟨t, y⟩, hsome, rfl⟩ := h
      exact ⟨(hpart hsome).trans (List.suffix_cons c s), .inr rfl⟩
    · cases h
      exact ⟨List.suffix_refl _, .inl rfl⟩

def IsContainer (type : LwjsonType) : Prop := type = .object ∨ type = .array

instance (type : LwjsonType) : Decidable (IsContainer type) := inferInstanceAs (Decidable (_ ∨ _))

theorem number_spec {t : List UInt8} {type : LwjsonType} {u : U R} (h : number s = some (t, type, u)) :
    t <:+ s ∧ t.length < s.length ∧ ¬ IsContainer type := by
  rw [number] at h
  dsimp only at h
  split at h
  · cases h
  next hdigits =>
    have hsuffix := afterChar_suffix (ch '-') s
    generalize afterChar (ch '-') s = v at h hdigits hsuffix
    rw [Option.map_eq_some_iff] at h
    obtain ⟨⟨w, x, type'⟩, hparts, heq⟩ := h
    cases heq
    rw [Option.bind_eq_some_iff] at hparts
    obtain ⟨r, hpoint, hexp⟩ := hparts
    obtain ⟨hsuffix₁, htype₁⟩ := optionalPart_suffix fraction_suffix hpoint
    obtain ⟨hsuffix₂, htype₂⟩ := optionalPart_suffix exponent_suffix hexp
    have hlength := congrArg List.length (List.takeWhile_append_dropWhile (p := isDigit) (l := v))
    rw [List.length_append] at hlength
    have hpos := List.length_pos_iff.2 hdigits
    have hle := (hsuffix₂.trans hsuffix₁).length_le
    have hle' := hsuffix.length_le
    refine ⟨(hsuffix₂.trans hsuffix₁).trans ((List.dropWhile_suffix _).trans hsuffix), by dsimp only at hle ⊢; omega, ?_⟩
    have htype : type' = .numInt ∨ type' = .numReal := by
      rcases htype₂ with htype₂ | htype₂
      · rw [← htype₂] at htype₁
        exact htype₁
      · exact .inr htype₂
    show ¬ IsContainer type'
    rcases htype with rfl | rfl <;> decide

omit [LwReal R] in
theorem name_spec {names t : List UInt8} {type type' : LwjsonType} {u : U R} (hnames : 0 < names.length) (htype : ¬ IsContainer type)
    (h : name s names type = some (t, type', u)) : t <:+ s ∧ t.length < s.length ∧ ¬ IsContainer type' := by
  rw [name] at h
  split at h
  next hprefix =>
    cases h
    have hle := (List.isPrefixOf_iff_prefix.1 hprefix).length_le
    refine ⟨List.drop_suffix _ _, ?_, htype⟩
    rw [List.length_drop]
    omega
  · cases h

theorem scalar_spec {out : Nat} {t : List UInt8} {type : LwjsonType} {u : U R} (h : scalar out s = some (t, type, u)) :
    t <:+ s ∧ t.length < s.length ∧ ¬ IsContainer type := by
  cases s with
  | nil => cases h
  | cons c s =>
    rw [scalar] at h
    split at h
    · rw [Option.map_eq_some_iff] at h
      obtain ⟨⟨t', value, n⟩, hquoted, heq⟩ := h
      cases heq
      obtain ⟨hsuffix, -, hlt⟩ := quoted_suffix hquoted
      exact ⟨hsuffix, hlt, by decide⟩
    split at h
    · exact name_spec (by decide) (by decide) h
    split at h
    · exact name_spec (by decide) (by decide) h
    split at h
    · exact name_spec (by decide) (by decide) h
    split at h
    · exact number_spec h
    · cases h

end

end Vedruino.Lwjson
