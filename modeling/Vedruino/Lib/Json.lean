import Mathlib.Data.List.Chain
import Vedruino.Lib.CLiteral

/-!
# JSON texts

A text is read as tokens with white space around them, and the tokens derive a value by the grammar. In a text that has a value two tokens that could run into each other never stand side by side, so it has the same value without the white space.
-/

namespace Vedruino.Json

open CLiteral (isHex number)

inductive Value
  | null
  | bool (b : Bool)
  | num (text : List Char)
  | str (units : List Nat)
  | arr (elements : List Value)
  | obj (members : List (List Nat × Value))

/-- A word is what stands between punctuation, strings and white space: a number or a literal name. -/
inductive Token
  | punct (c : Char)
  | str (raw : List Char)
  | word (cs : List Char)
  deriving DecidableEq, Repr

def Token.text : Token → List Char
  | .punct c => [c]
  | .str raw => '"' :: (raw ++ ['"'])
  | .word cs => cs

def Token.IsPunct : Token → Prop
  | .punct _ => True
  | _ => False

/-! ### Tokens -/

def isSpace (c : Char) : Bool := [' ', '\t', '\n', '\r'].contains c

def isPunct (c : Char) : Bool := ['\x7b', '\x7d', '[', ']', ':', ','].contains c

def isWordChar (c : Char) : Bool := !isSpace c && !isPunct c && c != '"'

/-- The character after a backslash and what follows it are an escape. -/
def isEscape (e : Char) (cs : List Char) : Bool :=
  ['"', '\\', '/', 'b', 'f', 'n', 'r', 't'].contains e || e == 'u' && 4 ≤ (cs.takeWhile isHex).length

/-- The characters of a string up to its closing quote, and what follows it. -/
def body : List Char → Option (List Char × List Char)
  | [] => none
  | c :: cs =>
    if c = '"' then some ([], cs)
    else if c = '\\' then
      match cs with
      | [] => none
      | e :: cs => if isEscape e cs then (body cs).map fun r => (c :: e :: r.1, r.2) else none
    else if c.toNat < 0x20 then none
    else (body cs).map fun r => (c :: r.1, r.2)

/-- The characters that a string may be made of. -/
inductive Body : List Char → Prop
  | nil : Body []
  | escape {e : Char} {cs : List Char} (he : isEscape e cs = true) (h : Body cs) : Body ('\\' :: e :: cs)
  | char {c : Char} {cs : List Char} (hquote : c ≠ '"') (hback : c ≠ '\\') (hc : 0x20 ≤ c.toNat) (h : Body cs) : Body (c :: cs)

theorem takeWhile_isHex (cs rest : List Char) : (cs ++ '"' :: rest).takeWhile isHex = cs.takeWhile isHex := by
  induction cs with
  | nil => rfl
  | cons c cs ih =>
    rw [List.cons_append, List.takeWhile_cons, List.takeWhile_cons, ih]

theorem isEscape_append (e : Char) (cs rest : List Char) : isEscape e (cs ++ '"' :: rest) = isEscape e cs := by
  rw [isEscape, isEscape, takeWhile_isHex]

theorem body_quote (cs : List Char) : body ('"' :: cs) = some ([], cs) := by
  rw [body.eq_def]
  exact if_pos rfl

theorem body_escape {e : Char} {cs : List Char} (he : isEscape e cs = true) :
    body ('\\' :: e :: cs) = (body cs).map fun r => ('\\' :: e :: r.1, r.2) := by
  rw [body.eq_def]
  exact if_pos he

theorem body_char {c : Char} {cs : List Char} (hquote : c ≠ '"') (hback : c ≠ '\\') (hc : 0x20 ≤ c.toNat) :
    body (c :: cs) = (body cs).map fun r => (c :: r.1, r.2) := by
  rw [body.eq_def]
  dsimp only
  rw [if_neg hquote, if_neg hback, if_neg (Nat.not_lt.2 hc)]

/-- A string ends at its first quote that is not escaped. -/
theorem body_append {raw : List Char} (h : Body raw) (rest : List Char) : body (raw ++ '"' :: rest) = some (raw, rest) := by
  induction h with
  | nil => exact body_quote rest
  | escape he _ ih =>
    rw [List.cons_append, List.cons_append, body_escape (by rw [isEscape_append]; exact he), ih]
    rfl
  | char hquote hback hc _ ih =>
    rw [List.cons_append, body_char hquote hback hc, ih]
    rfl

theorem body_spec {cs raw rest : List Char} (h : body cs = some (raw, rest)) : cs = raw ++ '"' :: rest ∧ Body raw := by
  fun_induction body cs generalizing raw rest with
  | case2 cs =>
    cases h
    exact ⟨rfl, .nil⟩
  | case4 e cs he _ ih =>
    obtain ⟨⟨raw', rest'⟩, hbody, heq⟩ := Option.map_eq_some_iff.1 h
    cases heq
    obtain ⟨rfl, hraw⟩ := ih hbody
    rw [isEscape_append] at he
    exact ⟨rfl, .escape he hraw⟩
  | case7 c cs hquote hback hc ih =>
    obtain ⟨⟨raw', rest'⟩, hbody, heq⟩ := Option.map_eq_some_iff.1 h
    cases heq
    obtain ⟨rfl, hraw⟩ := ih hbody
    exact ⟨rfl, .char hquote hback (Nat.not_lt.1 hc) hraw⟩
  | _ => cases h

theorem length_lt_of_body {cs raw rest : List Char} (h : body cs = some (raw, rest)) : rest.length < cs.length := by
  obtain ⟨rfl, -⟩ := body_spec h
  rw [List.length_append, List.length_cons]
  omega

def lex : List Char → Option (List Token)
  | [] => some []
  | c :: cs =>
    if isSpace c then lex cs
    else if isPunct c then (lex cs).map fun ts => .punct c :: ts
    else if c = '"' then
      match _h : body cs with
      | none => none
      | some (raw, rest) => (lex rest).map fun ts => .str raw :: ts
    else (lex (cs.dropWhile isWordChar)).map fun ts => .word (c :: cs.takeWhile isWordChar) :: ts
termination_by cs => cs.length
decreasing_by
  · rw [List.length_cons]
    omega
  · rw [List.length_cons]
    omega
  · have hlt := length_lt_of_body _h
    rw [List.length_cons]
    omega
  · have hle := (List.dropWhile_suffix isWordChar (l := cs)).length_le
    rw [List.length_cons]
    omega

/-- The text without the white space outside strings. -/
def compact (text : List Char) : List Char := ((lex text).getD []).flatMap Token.text

/-- What the tokens of a text are made of. -/
inductive Token.Wf : Token → Prop
  | punct {c : Char} (hc : isPunct c = true) : Wf (.punct c)
  | str {raw : List Char} (hraw : Body raw) : Wf (.str raw)
  | word {c : Char} {cs : List Char} (hcs : ∀ d ∈ c :: cs, isWordChar d = true) : Wf (.word (c :: cs))

theorem lex_space {c : Char} (hc : isSpace c = true) (cs : List Char) : lex (c :: cs) = lex cs := by rw [lex, if_pos hc]

theorem lex_punct {c : Char} (hc : isPunct c = true) (cs : List Char) :
    lex (c :: cs) = (lex cs).map fun ts => .punct c :: ts := by
  have hspace : ¬ isSpace c = true := by
    simp only [isPunct, isSpace, List.contains_iff_mem, List.mem_cons, List.not_mem_nil, or_false] at *
    rcases hc with rfl | rfl | rfl | rfl | rfl | rfl <;> decide
  rw [lex, if_neg hspace, if_pos hc]

theorem lex_str {raw : List Char} (hraw : Body raw) (rest : List Char) :
    lex ('"' :: (raw ++ '"' :: rest)) = (lex rest).map fun ts => .str raw :: ts := by
  rw [lex, if_neg (by decide), if_neg (by decide), if_pos rfl]
  split
  next hnone => cases hnone.symm.trans (body_append hraw rest)
  next raw' rest' hsome =>
    cases hsome.symm.trans (body_append hraw rest)
    rfl

theorem lex_word {c : Char} {cs rest : List Char} (hcs : ∀ d ∈ c :: cs, isWordChar d = true)
    (hrest : ∀ d ∈ rest.head?, isWordChar d = false) :
    lex (c :: cs ++ rest) = (lex rest).map fun ts => .word (c :: cs) :: ts := by
  obtain ⟨hc, hcs⟩ := List.forall_mem_cons.1 hcs
  have hword : ¬ isSpace c = true ∧ ¬ isPunct c = true ∧ c ≠ '"' := by
    simp only [isWordChar, Bool.and_eq_true, Bool.not_eq_true', bne_iff_ne] at hc
    simp [hc]
  have htake := CLiteral.span_append hcs hrest
  rw [List.cons_append, lex, if_neg hword.1, if_neg hword.2.1, if_neg hword.2.2, htake.1, htake.2]

theorem wf_of_lex {text : List Char} {ts : List Token} (h : lex text = some ts) : ∀ t ∈ ts, t.Wf := by
  fun_induction lex text generalizing ts with
  | case1 =>
    cases h
    exact fun _ h => absurd h List.not_mem_nil
  | case2 c cs hc ih => exact ih h
  | case3 c cs hspace hc ih =>
    obtain ⟨us, hlex, rfl⟩ := Option.map_eq_some_iff.1 h
    exact List.forall_mem_cons.2 ⟨.punct hc, ih hlex⟩
  | case4 => cases h
  | case5 cs raw rest hbody _ _ ih =>
    obtain ⟨us, hlex, rfl⟩ := Option.map_eq_some_iff.1 h
    exact List.forall_mem_cons.2 ⟨.str (body_spec hbody).2, ih hlex⟩
  | case6 c cs hspace hpunct hquote ih =>
    obtain ⟨us, hlex, rfl⟩ := Option.map_eq_some_iff.1 h
    refine List.forall_mem_cons.2 ⟨.word ?_, ih hlex⟩
    rw [List.forall_mem_cons]
    refine ⟨?_, List.all_eq_true.1 List.all_takeWhile⟩
    simp only [isWordChar, Bool.and_eq_true, Bool.not_eq_true', bne_iff_ne]
    simp [hspace, hpunct, hquote]

/-- Two tokens that cannot run into each other. -/
def Apart (t u : Token) : Prop := t.IsPunct ∨ u.IsPunct

theorem isWordChar_of_isPunct {c : Char} (hc : isPunct c = true) : isWordChar c = false := by
  rw [isWordChar, hc, Bool.not_true, Bool.and_false, Bool.false_and]

/-- Tokens that stand apart are read back from their texts alone. -/
theorem lex_flatMap_text {ts : List Token} (hwf : ∀ t ∈ ts, t.Wf) (hapart : ts.IsChain Apart) :
    lex (ts.flatMap Token.text) = some ts := by
  induction ts with
  | nil => rw [List.flatMap_nil, lex]
  | cons t ts ih =>
    obtain ⟨ht, hts⟩ := List.forall_mem_cons.1 hwf
    obtain ⟨hfirst, hrest⟩ := List.isChain_cons.1 hapart
    have hlex := ih hts hrest
    rw [List.flatMap_cons]
    cases ht with
    | punct hc =>
      rw [Token.text, List.singleton_append, lex_punct hc, hlex]
      rfl
    | @str raw hraw =>
      rw [Token.text, List.cons_append, List.append_assoc, List.singleton_append, lex_str hraw, hlex]
      rfl
    | word hcs =>
      rw [Token.text, lex_word hcs, hlex]
      · rfl
      · intro d hd
        cases ts with
        | nil => cases hd
        | cons u ts =>
          have hpunct := hts u List.mem_cons_self
          rcases hfirst u rfl with hword | hu
          · cases hword
          · cases hpunct with
            | punct hc =>
              cases hd
              exact isWordChar_of_isPunct hc
            | str => cases hu
            | word => cases hu

/-! ### Values -/

/-- `exp` of a number, or nothing. -/
def isExp : List Char → Bool
  | [] => true
  | e :: cs =>
    let ds := match cs with
      | '+' :: ds | '-' :: ds => ds
      | ds => ds
    (e == 'e' || e == 'E') && ds != [] && ds.all Char.isDigit

/-- `frac` and `exp` of a number, or nothing. -/
def isFrac : List Char → Bool
  | '.' :: cs => cs.takeWhile Char.isDigit != [] && isExp (cs.dropWhile Char.isDigit)
  | cs => isExp cs

def isNumber (cs : List Char) : Bool :=
  let cs := match cs with
    | '-' :: cs => cs
    | cs => cs
  let int := cs.takeWhile Char.isDigit
  int != [] && (int == ['0'] || int.head? != some '0') && isFrac (cs.dropWhile Char.isDigit)

/-- The code units of a character in UTF-16. -/
def utf16 (c : Char) : List Nat :=
  if c.toNat < 0x10000 then [c.toNat] else [0xd800 + (c.toNat - 0x10000) / 0x400, 0xdc00 + (c.toNat - 0x10000) % 0x400]

/-- The code units that the characters of a string stand for. -/
def units : List Char → List Nat
  | '\\' :: 'u' :: a :: b :: c :: d :: cs => number 16 [a, b, c, d] :: units cs
  | '\\' :: 'b' :: cs => 8 :: units cs
  | '\\' :: 'f' :: cs => 12 :: units cs
  | '\\' :: 'n' :: cs => 10 :: units cs
  | '\\' :: 'r' :: cs => 13 :: units cs
  | '\\' :: 't' :: cs => 9 :: units cs
  | '\\' :: e :: cs => utf16 e ++ units cs
  | c :: cs => utf16 c ++ units cs
  | [] => []

/-- What a part of a text derives. -/
inductive Part
  | value (v : Value)
  | elements (vs : List Value)
  | members (ms : List (List Nat × Value))

/-- The grammar over tokens. -/
inductive Derives : Part → List Token → Prop
  | null : Derives (.value .null) [.word "null".toList]
  | true_ : Derives (.value (.bool true)) [.word "true".toList]
  | false_ : Derives (.value (.bool false)) [.word "false".toList]
  | num {cs : List Char} (h : isNumber cs = true) : Derives (.value (.num cs)) [.word cs]
  | str (raw : List Char) : Derives (.value (.str (units raw))) [.str raw]
  | arrNil : Derives (.value (.arr [])) [.punct '[', .punct ']']
  | arr {vs : List Value} {ts : List Token} (h : Derives (.elements vs) ts) :
    Derives (.value (.arr vs)) (.punct '[' :: (ts ++ [.punct ']']))
  | objNil : Derives (.value (.obj [])) [.punct '\x7b', .punct '\x7d']
  | obj {ms : List (List Nat × Value)} {ts : List Token} (h : Derives (.members ms) ts) :
    Derives (.value (.obj ms)) (.punct '\x7b' :: (ts ++ [.punct '\x7d']))
  | element {v : Value} {ts : List Token} (h : Derives (.value v) ts) : Derives (.elements [v]) ts
  | elements {v : Value} {vs : List Value} {ts us : List Token} (h : Derives (.value v) ts) (hs : Derives (.elements vs) us) :
    Derives (.elements (v :: vs)) (ts ++ .punct ',' :: us)
  | member (raw : List Char) {v : Value} {ts : List Token} (h : Derives (.value v) ts) :
    Derives (.members [(units raw, v)]) (.str raw :: .punct ':' :: ts)
  | members (raw : List Char) {v : Value} {ms : List (List Nat × Value)} {ts us : List Token} (h : Derives (.value v) ts)
    (hs : Derives (.members ms) us) :
    Derives (.members ((units raw, v) :: ms)) (.str raw :: .punct ':' :: (ts ++ .punct ',' :: us))

/-- The text is a JSON text with that value. -/
def Parses (text : List Char) (v : Value) : Prop := ∃ ts, lex text = some ts ∧ Derives (.value v) ts

theorem isChain_punct_cons {c : Char} {ts : List Token} (h : ts.IsChain Apart) : (.punct c :: ts).IsChain Apart :=
  List.isChain_cons.2 ⟨fun _ _ => .inl trivial, h⟩

theorem isChain_append_punct {c : Char} {ts us : List Token} (ht : ts.IsChain Apart) (hu : us.IsChain Apart) :
    (ts ++ .punct c :: us).IsChain Apart := by
  rw [List.isChain_append]
  refine ⟨ht, isChain_punct_cons hu, ?_⟩
  rintro _ _ _ ⟨⟩
  exact .inr trivial

/-- Between two words or strings there is punctuation. -/
theorem Derives.isChain {p : Part} {ts : List Token} (h : Derives p ts) : ts.IsChain Apart := by
  have hmember (raw : List Char) {us : List Token} (hu : us.IsChain Apart) :
      ([.str raw] ++ .punct ':' :: us : List Token).IsChain Apart := isChain_append_punct (List.isChain_singleton _) hu
  induction h with
  | null | true_ | false_ | num _ | str _ => exact List.isChain_singleton _
  | arrNil | objNil => exact isChain_punct_cons (List.isChain_singleton _)
  | arr _ ih | obj _ ih => exact isChain_punct_cons (isChain_append_punct ih List.isChain_nil)
  | element _ ih => exact ih
  | elements _ _ ih ihs => exact isChain_append_punct ih ihs
  | member raw _ ih => exact hmember raw ih
  | members raw _ _ ih ihs => exact hmember raw (isChain_append_punct ih ihs)

/-- A text without its white space has the same values. -/
theorem parses_compact {text : List Char} {v : Value} (h : Parses text v) (w : Value) :
    Parses (compact text) w ↔ Parses text w := by
  obtain ⟨ts, hlex, hderives⟩ := h
  have hcompact : lex (compact text) = some ts := by
    rw [compact, hlex]
    exact lex_flatMap_text (wf_of_lex hlex) hderives.isChain
  rw [Parses, Parses, hcompact, hlex]

end Vedruino.Json
