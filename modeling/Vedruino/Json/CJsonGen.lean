import Vedruino.Lib.CSource
import Vedruino.Lib.Json

/-!
# Generating C from JSON

`tools/cjsongen.py` prints a JSON text as a comment, followed by an array with one constant for each character that is not white space outside strings.
-/

namespace Vedruino.CJsonGen

/-- The variables of the loop. -/
structure Gen where
  cstr : List Char
  string : Bool
  escapeInStr : Bool
  deriving DecidableEq, Repr

/-- `str(ord(c)) + ','` -/
def item (c : Char) : List Char := Nat.toDigits 10 c.toNat ++ [',']

/-- A round of the loop; `none` is the exit with `malformed json`. -/
def step (g : Gen) (c : Char) : Option Gen :=
  if c = '\n' then
    if g.string || g.escapeInStr then none else some g
  else if [' ', '\t', '\r'].contains c && !g.string then some g
  else if g.escapeInStr then some { g with cstr := g.cstr ++ item c, escapeInStr := false }
  else
    let string := if c = '"' then !g.string else g.string
    some ⟨g.cstr ++ item c, string, c == '\\' && string⟩

def start (name : List Char) : List Char := "const char ".toList ++ (name ++ "[] = \x7b".toList)

/-- What the script prints for the text on its standard input. -/
def cjsongen (name text : List Char) : Option (List Char) :=
  (text.foldlM step ⟨start name, false, false⟩).map fun g =>
    "/* JSON\n".toList ++ (text ++ ("*/\n".toList ++ (g.cstr ++ "0\x7d;\n".toList)))

/-! ### The loop -/

open Json

theorem step_space {c : Char} (hc : isSpace c = true) (out : List Char) : step ⟨out, false, false⟩ c = some ⟨out, false, false⟩ := by
  simp only [isSpace, List.contains_iff_mem, List.mem_cons, List.not_mem_nil, or_false] at hc
  rcases hc with rfl | rfl | rfl | rfl <;> rfl

/-- Outside of strings. -/
theorem step_outside {c : Char} (hspace : isSpace c = false) (hquote : c ≠ '"') (out : List Char) :
    step ⟨out, false, false⟩ c = some ⟨out ++ item c, false, false⟩ := by
  simp only [isSpace, ← Bool.not_eq_true, List.contains_iff_mem, List.mem_cons, List.not_mem_nil, or_false, not_or] at hspace
  simp [step, hspace, hquote]

/-- Inside of a string. -/
theorem step_inside {c : Char} (hquote : c ≠ '"') (hback : c ≠ '\\') (hc : 0x20 ≤ c.toNat) (out : List Char) :
    step ⟨out, true, false⟩ c = some ⟨out ++ item c, true, false⟩ := by
  have hline : c ≠ '\n' := by
    rintro rfl
    revert hc
    decide
  simp [step, hquote, hback, hline]

theorem step_escaped {e : Char} {cs : List Char} (he : isEscape e cs = true) (out : List Char) :
    step ⟨out, true, true⟩ e = some ⟨out ++ item e, true, false⟩ := by
  have hline : e ≠ '\n' := by
    rintro rfl
    exact Bool.noConfusion he
  simp [step, hline]

theorem foldlM_step {g g' : Gen} {c : Char} (h : step g c = some g') (cs : List Char) :
    (c :: cs).foldlM step g = cs.foldlM step g' := by
  rw [List.foldlM_cons, h]
  rfl

private theorem foldlM_body {raw : List Char} (h : Body raw) (out rest : List Char) :
    (raw ++ '"' :: rest).foldlM step ⟨out, true, false⟩ =
      rest.foldlM step ⟨out ++ (raw ++ ['"']).flatMap item, false, false⟩ := by
  induction h generalizing out with
  | nil =>
    have hquote : step ⟨out, true, false⟩ '"' = some ⟨out ++ item '"', false, false⟩ := rfl
    rw [List.nil_append, foldlM_step hquote, List.nil_append, List.flatMap_singleton]
  | escape he _ ih =>
    have hback : step ⟨out, true, false⟩ '\\' = some ⟨out ++ item '\\', true, true⟩ := rfl
    rw [List.cons_append, List.cons_append, foldlM_step hback, foldlM_step (step_escaped he _), ih]
    simp only [List.cons_append, List.flatMap_cons, List.append_assoc]
  | char hquote hback hc _ ih =>
    rw [List.cons_append, foldlM_step (step_inside hquote hback hc _), ih]
    simp only [List.cons_append, List.flatMap_cons, List.append_assoc]

private theorem foldlM_outside {cs : List Char} (hcs : ∀ c ∈ cs, isSpace c = false ∧ c ≠ '"') (out rest : List Char) :
    (cs ++ rest).foldlM step ⟨out, false, false⟩ = rest.foldlM step ⟨out ++ cs.flatMap item, false, false⟩ := by
  induction cs generalizing out with
  | nil => rw [List.nil_append, List.flatMap_nil, List.append_nil]
  | cons c cs ih =>
    obtain ⟨⟨hspace, hquote⟩, hcs⟩ := List.forall_mem_cons.1 hcs
    rw [List.cons_append, foldlM_step (step_outside hspace hquote out), ih hcs, List.flatMap_cons, List.append_assoc]

/-- The loop stays in step with the tokens of the text. -/
theorem foldlM_lex {text : List Char} {ts : List Token} (h : lex text = some ts) (out : List Char) :
    text.foldlM step ⟨out, false, false⟩ = some ⟨out ++ (ts.flatMap Token.text).flatMap item, false, false⟩ := by
  fun_induction lex text generalizing ts out with
  | case1 =>
    cases h
    rw [List.flatMap_nil, List.flatMap_nil, List.append_nil]
    rfl
  | case2 c cs hc ih => rw [foldlM_step (step_space hc out), ih h]
  | case3 c cs hspace hc ih =>
    obtain ⟨us, hlex, rfl⟩ := Option.map_eq_some_iff.1 h
    have hquote : c ≠ '"' := by
      rintro rfl
      exact Bool.noConfusion hc
    rw [foldlM_step (step_outside (Bool.not_eq_true _ ▸ hspace) hquote out), ih hlex]
    simp [Token.text]
  | case5 cs raw rest hbody _ _ ih =>
    obtain ⟨us, hlex, rfl⟩ := Option.map_eq_some_iff.1 h
    obtain ⟨rfl, hraw⟩ := body_spec hbody
    have hquote : step ⟨out, false, false⟩ '"' = some ⟨out ++ item '"', true, false⟩ := rfl
    rw [foldlM_step hquote, foldlM_body hraw, ih hlex]
    simp [Token.text]
  | case6 c cs hspace hpunct hquote ih =>
    obtain ⟨us, hlex, rfl⟩ := Option.map_eq_some_iff.1 h
    have hword : ∀ d ∈ c :: cs.takeWhile isWordChar, isSpace d = false ∧ d ≠ '"' := by
      refine List.forall_mem_cons.2 ⟨⟨Bool.not_eq_true _ ▸ hspace, hquote⟩, ?_⟩
      intro d hd
      have hchar := List.all_eq_true.1 List.all_takeWhile d hd
      simp only [isWordChar, Bool.and_eq_true, Bool.not_eq_true', bne_iff_ne] at hchar
      exact ⟨hchar.1.1, hchar.2⟩
    have hsplit : c :: cs = (c :: cs.takeWhile isWordChar) ++ cs.dropWhile isWordChar :=
      congrArg (c :: ·) List.takeWhile_append_dropWhile.symm
    rw [hsplit, foldlM_outside hword, ih hlex]
    simp [Token.text]
  | _ => cases h

/-! ### The source -/

open CSource (Defines charArray initializer isIdentChar)

private theorem lex_items (cs : List Char) : CSource.lex (cs.flatMap item ++ "0\x7d;\n".toList) =
    some (initializer ((cs.map Char.toNat ++ [0]).map (Nat.toDigits 10)) ++ [.punct '\x7d', .punct ';']) := by
  induction cs with
  | nil =>
    have hend : CSource.lex ['\x7d', ';', '\n'] = some [.punct '\x7d', .punct ';'] := by
      rw [CSource.lex_punct rfl rfl (by decide) (by decide), CSource.lex_punct rfl rfl (by decide) (by decide),
        CSource.lex_space rfl, CSource.lex]
      rfl
    have hzero : CSource.lex (Nat.toDigits 10 0 ++ ['\x7d', ';', '\n']) = _ := CSource.lex_toDigits 0 (by rintro d ⟨⟩; rfl)
    rw [hend] at hzero
    exact hzero
  | cons c cs ih =>
    have hitem : CSource.lex (Nat.toDigits 10 c.toNat ++ ',' :: (cs.flatMap item ++ "0\x7d;\n".toList)) = _ :=
      CSource.lex_toDigits c.toNat (by rintro d ⟨⟩; rfl)
    rw [CSource.lex_punct rfl rfl (by decide) (by decide), ih] at hitem
    rw [List.flatMap_cons, item, List.append_assoc, List.append_assoc, List.singleton_append, hitem, List.map_cons,
      List.cons_append, List.map_cons, CSource.initializer_cons _ (by simp)]
    rfl

/-- The name is an identifier of C. -/
def IsIdent (name : List Char) : Prop := ∃ c cs, name = c :: cs ∧ CSource.isIdentStart c = true ∧ ∀ d ∈ cs, isIdentChar d = true

private theorem lex_definition {name : List Char} (hname : IsIdent name) (cs : List Char) :
    CSource.lex (start name ++ (cs.flatMap item ++ "0\x7d;\n".toList)) = some (charArray name (cs.map Char.toNat ++ [0])) := by
  obtain ⟨d, ds, rfl, hd, hds⟩ := hname
  generalize hrest : cs.flatMap item ++ "0\x7d;\n".toList = rest
  have hconst : start (d :: ds) ++ rest =
      'c' :: ['o', 'n', 's', 't'] ++ ' ' :: ('c' :: ['h', 'a', 'r'] ++ ' ' :: (d :: ds ++ '[' :: ']' :: ' ' :: '=' :: ' ' :: '\x7b' :: rest)) := by
    unfold start
    simp only [String.reduceToList, List.append_assoc, List.cons_append, List.nil_append]
  rw [hconst, CSource.lex_ident rfl (List.all_eq_true.1 rfl) (by rintro d ⟨⟩; rfl), CSource.lex_space rfl,
    CSource.lex_ident rfl (List.all_eq_true.1 rfl) (by rintro d ⟨⟩; rfl), CSource.lex_space rfl,
    CSource.lex_ident hd hds (by rintro d ⟨⟩; rfl), CSource.lex_punct rfl rfl (by decide) (by decide),
    CSource.lex_punct rfl rfl (by decide) (by decide), CSource.lex_space rfl, CSource.lex_punct rfl rfl (by decide) (by decide),
    CSource.lex_space rfl, CSource.lex_punct rfl rfl (by decide) (by decide), ← hrest, lex_items]
  rfl

/-- What stands between the marks of the comment. -/
theorem infix_header (text : List Char) : ['*', '/'] <:+: " JSON\n".toList ++ text ↔ ['*', '/'] <:+: text := by
  have hskip {c : Char} (hc : c ≠ '*') (cs : List Char) : ['*', '/'] <:+: c :: cs ↔ ['*', '/'] <:+: cs := by
    rw [List.infix_cons_iff, List.cons_prefix_cons]
    exact or_iff_right fun h => hc h.1.symm
  show ['*', '/'] <:+: ' ' :: 'J' :: 'S' :: 'O' :: 'N' :: '\n' :: text ↔ _
  rw [hskip (by decide), hskip (by decide), hskip (by decide), hskip (by decide), hskip (by decide), hskip (by decide)]

private theorem mem_flatMap_text {text : List Char} {ts : List Token} (h : lex text = some ts) {c : Char} (hc : isSpace c = false) :
    c ∈ ts.flatMap Token.text ↔ c ∈ text := by
  fun_induction lex text generalizing ts with
  | case1 =>
    cases h
    exact Iff.rfl
  | case2 d cs hd ih =>
    have hne : c ≠ d := by
      rintro rfl
      rw [hd] at hc
      cases hc
    rw [ih h, List.mem_cons, or_iff_right hne]
  | case3 d cs _ _ ih =>
    obtain ⟨us, hlex, rfl⟩ := Option.map_eq_some_iff.1 h
    rw [List.flatMap_cons, Token.text, List.singleton_append, List.mem_cons, List.mem_cons, ih hlex]
  | case5 cs raw rest hbody _ _ ih =>
    obtain ⟨us, hlex, rfl⟩ := Option.map_eq_some_iff.1 h
    obtain ⟨rfl, -⟩ := body_spec hbody
    have hmem := ih hlex
    simp only [List.flatMap_cons, Token.text, List.cons_append, List.append_assoc, List.nil_append, List.mem_cons,
      List.mem_append, hmem]
  | case6 d cs _ _ _ ih =>
    obtain ⟨us, hlex, rfl⟩ := Option.map_eq_some_iff.1 h
    have hmem := ih hlex
    rw [List.flatMap_cons, Token.text, List.cons_append, List.mem_cons, List.mem_cons, List.mem_append, hmem, ← List.mem_append,
      List.takeWhile_append_dropWhile]
  | _ => cases h

/-- White space is in ASCII, so the text is where what is left of it is. -/
theorem ascii_compact {text : List Char} {ts : List Token} (h : lex text = some ts) :
    (∀ c ∈ compact text, c.toNat < 0x80) ↔ ∀ c ∈ text, c.toNat < 0x80 := by
  have hspace : ∀ c : Char, isSpace c = true → c.toNat < 0x80 := by
    intro c hc
    simp only [isSpace, List.contains_iff_mem, List.mem_cons, List.not_mem_nil, or_false] at hc
    rcases hc with rfl | rfl | rfl | rfl <;> decide
  rw [compact, h, Option.getD_some]
  constructor
  · intro hall c hmem
    cases hc : isSpace c with
    | true => exact hspace c hc
    | false => exact hall c ((mem_flatMap_text h hc).2 hmem)
  · intro hall c hmem
    cases hc : isSpace c with
    | true => exact hspace c hc
    | false => exact hall c ((mem_flatMap_text h hc).1 hmem)

/-- The source after the beginning of its comment. -/
def rest (name text : List Char) : List Char := '\n' :: (start name ++ ((compact text).flatMap item ++ "0\x7d;\n".toList))

theorem cjsongen_eq {text : List Char} {ts : List Token} (h : lex text = some ts) (name : List Char) :
    cjsongen name text = some ('/' :: '*' :: ((" JSON\n".toList ++ text) ++ '*' :: '/' :: rest name text)) := by
  rw [cjsongen, foldlM_lex h, rest, compact, h]
  unfold start
  simp

private theorem lex_rest {name : List Char} (hname : IsIdent name) (text : List Char) :
    CSource.lex (rest name text) = some (charArray name ((compact text).map Char.toNat ++ [0])) := by
  rw [rest, CSource.lex_space rfl]
  exact lex_definition hname (compact text)

/-- Where the text ends the comment, stars follow that belong to no definition. -/
theorem not_defines {name text : List Char} (htext : ['*', '/'] <:+: text) (bytes : List UInt8) :
    ¬ Defines ('/' :: '*' :: ((" JSON\n".toList ++ text) ++ '*' :: '/' :: rest name text)) name bytes := by
  rintro ⟨values, hlex, -⟩
  obtain ⟨cs', hcomment⟩ := CSource.afterComment_of_infix ((infix_header text).2 htext) ('*' :: '/' :: rest name text)
  rw [CSource.lex_comment hcomment, Option.map_eq_some_iff] at hlex
  obtain ⟨ts, hlex, heq⟩ := hlex
  obtain ⟨rfl⟩ := (List.cons.inj heq).2
  obtain ⟨t, ht, hplain⟩ := CSource.exists_not_plain hlex (List.mem_append_right _ List.mem_cons_self)
  exact hplain (CSource.plain_charArray name values t ht)

theorem defines_iff {name text : List Char} (hname : IsIdent name) (htext : ¬ ['*', '/'] <:+: text) (bytes : List UInt8) :
    Defines ('/' :: '*' :: ((" JSON\n".toList ++ text) ++ '*' :: '/' :: rest name text)) name bytes ↔
      bytes = ((compact text).map Char.toNat ++ [0]).map UInt8.ofNat := by
  have hlex := CSource.lex_comment (CSource.afterComment_append (mt (infix_header text).1 htext) (rest name text))
  rw [lex_rest hname, Option.map_some] at hlex
  constructor
  · rintro ⟨values, hvalues, rfl⟩
    rw [hlex] at hvalues
    rw [CSource.charArray_injective (List.cons.inj (Option.some.inj hvalues)).2]
  · rintro rfl
    exact ⟨_, hlex, rfl⟩

/-- **For a JSON text the script prints one comment and one array with the bytes of the text without white space, which has the same values, exactly where the text is ASCII and does not end a comment.** -/
theorem cjsongen_faithful_iff {name text : List Char} {v : Value} (hname : IsIdent name) (hv : Parses text v) :
    ∃ out, cjsongen name text = some out ∧
      ((Defines out name (CLiteral.utf8 (compact text) ++ [0]) ∧ ∀ w, Parses (compact text) w ↔ Parses text w) ↔
        (∀ c ∈ text, c.toNat < 0x80) ∧ ¬ ['*', '/'] <:+: text) := by
  obtain ⟨ts, hlex, -⟩ := id hv
  refine ⟨_, cjsongen_eq hlex name, ?_⟩
  rw [and_iff_left (parses_compact hv)]
  by_cases htext : ['*', '/'] <:+: text
  · exact iff_of_false (not_defines htext _) fun h => h.2 htext
  · rw [and_iff_left htext, defines_iff hname htext, List.map_append, List.map_map, ← ascii_compact hlex]
    constructor
    · intro hbytes
      apply CLiteral.ascii_of_length_utf8
      rw [List.append_cancel_right hbytes, List.length_map]
    · intro hascii
      rw [CLiteral.utf8_of_ascii hascii]
      rfl

/-- A text of one string. -/
def quoted (c : Char) : List Char := ['"', c, '"']

theorem lex_quoted {c : Char} (hquote : c ≠ '"') (hback : c ≠ '\\') (hc : 0x20 ≤ c.toNat) : lex (quoted c) = some [.str [c]] :=
  lex_flatMap_text (List.forall_mem_singleton.2 (.str (.char hquote hback hc .nil))) (List.isChain_singleton _)

theorem cjsongen_faithful_iff_ascii : ∃ out, cjsongen ['j'] (quoted 'a') = some out ∧
    Defines out ['j'] (CLiteral.utf8 (compact (quoted 'a')) ++ [0]) := by
  have hname : IsIdent ['j'] := ⟨'j', [], rfl, rfl, fun _ h => absurd h List.not_mem_nil⟩
  have hparses : Parses (quoted 'a') (.str (units ['a'])) :=
    ⟨_, lex_quoted (by decide) (by decide) (by decide), .str ['a']⟩
  obtain ⟨out, hout, hiff⟩ := cjsongen_faithful_iff hname hparses
  exact ⟨out, hout, (hiff.2 ⟨by simp [quoted], by decide⟩).1⟩

/-- The letter is written as one constant and is two bytes in UTF-8. -/
theorem not_cjsongen_faithful : ¬ ∀ (name text : List Char) (v : Value), IsIdent name → Parses text v →
    ∃ out, cjsongen name text = some out ∧ Defines out name (CLiteral.utf8 (compact text) ++ [0]) := by
  intro h
  have hname : IsIdent ['j'] := ⟨'j', [], rfl, rfl, fun _ h => absurd h List.not_mem_nil⟩
  have hlex := lex_quoted (c := 'é') (by decide) (by decide) (by decide)
  obtain ⟨out, hout, hdefines⟩ := h ['j'] (quoted 'é') (.str (units ['é'])) hname ⟨_, hlex, .str ['é']⟩
  rw [cjsongen_eq hlex, Option.some.injEq] at hout
  rw [← hout, defines_iff hname (by decide), compact, hlex] at hdefines
  revert hdefines
  decide

end Vedruino.CJsonGen
