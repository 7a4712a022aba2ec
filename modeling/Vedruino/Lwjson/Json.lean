import Vedruino.Json.CJsonGen
import Vedruino.Lwjson.Language

/-!
# JSON texts

Every JSON text of an array or an object is a text of the language of the parser, and its tree says the value. The parser takes more than JSON texts, but it takes each of them for what it is, also where `cjsongen.py` has put it into a C source.
-/

namespace Vedruino.Lwjson

open CLiteral (utf8 utf8_cons utf8_append utf8_char)

open Json (Body Derives Part Value isEscape units)

variable {R : Type} {s t : List UInt8}

/-! ### Characters -/

theorem utf8_ascii_cons {c : Char} (hc : c.toNat < 0x80) (cs : List Char) : utf8 (c :: cs) = ch c :: utf8 cs := by
  rw [utf8_cons]
  rcases utf8_char c with ⟨heq, -⟩ | ⟨hle, -⟩
  · rw [heq]
    rfl
  · exact (Nat.not_lt.2 hle hc).elim

/-- Characters of ASCII that differ are bytes that differ. -/
theorem ch_ne {c d : Char} (hc : c.toNat < 0x80) (hd : d.toNat < 0x80) (h : c ≠ d) : ch c ≠ ch d := by
  intro heq
  apply h
  have hnat := congrArg UInt8.toNat heq
  rw [UInt8.toNat_ofNat', UInt8.toNat_ofNat', Nat.mod_eq_of_lt (by omega), Nat.mod_eq_of_lt (by omega)] at hnat
  exact Char.ext (UInt32.toNat_inj.1 hnat)

/-- The bytes of a character that is none of ASCII are others than that of one that is. -/
theorem ne_of_high {b : UInt8} (hb : 0x80 ≤ b.toNat) {d : Char} (hd : d.toNat < 0x80) : b ≠ ch d := by
  rintro rfl
  rw [UInt8.toNat_ofNat', Nat.mod_eq_of_lt (by omega)] at hb
  omega

/-! ### Strings -/

theorem Raw.append_high {bs : List UInt8} (hbs : ∀ b ∈ bs, 0x80 ≤ b.toNat) (h : Raw s) : Raw (bs ++ s) := by
  induction bs with
  | nil => exact h
  | cons b bs ih =>
    obtain ⟨hb, hbs⟩ := List.forall_mem_cons.1 hbs
    exact .char (ne_of_high hb (d := '\\') (by decide)) (ne_of_high hb (d := '"') (by decide)) (ih hbs)

theorem Raw.tail {c : UInt8} (h : Raw (c :: s)) (hback : c ≠ ch '\\') : Raw s := by
  cases h with
  | escape => exact (hback rfl).elim
  | unicode => exact (hback rfl).elim
  | char _ _ h => exact h

/-- What holds of the characters of ASCII one by one. -/
theorem ascii_cases {p : Char → Prop} (h : ∀ n < 0x80, p (Char.ofNat n)) {c : Char} (hc : c.toNat < 0x80) : p c := by
  have hp := h c.toNat hc
  rwa [Char.ofNat_toNat] at hp

private theorem ascii_of_le {c d : Char} (hd : d.toNat < 0x80) (h : c ≤ d) : c.toNat < 0x80 :=
  Nat.lt_of_le_of_lt (UInt32.le_iff_toNat_le.1 h) hd

private theorem isHex_ch {c : Char} (h : CLiteral.isHex c = true) : c.toNat < 0x80 ∧ isHex (ch c) = true ∧ ch c ≠ ch '\\' := by
  have hascii : c.toNat < 0x80 := by
    simp only [CLiteral.isHex, Bool.or_eq_true, Bool.and_eq_true, decide_eq_true_eq] at h
    rcases h with (⟨-, h⟩ | ⟨-, h⟩) | ⟨-, h⟩
    · exact ascii_of_le (by decide) h
    · exact ascii_of_le (by decide) h
    · exact ascii_of_le (by decide) h
  refine ⟨hascii, ?_⟩
  revert h
  refine ascii_cases (p := fun c => CLiteral.isHex c = true → isHex (ch c) = true ∧ ch c ≠ ch '\\') ?_ hascii
  decide

/-- The digits of an escape. -/
theorem hex_of_takeWhile {cs : List Char} (h : 4 ≤ (cs.takeWhile CLiteral.isHex).length) :
    ∃ a b c d ds, cs = a :: b :: c :: d :: ds ∧ ∀ e ∈ [a, b, c, d], CLiteral.isHex e = true := by
  obtain ⟨a, b, c, d, ds, heq⟩ : ∃ a b c d ds, cs.takeWhile CLiteral.isHex = a :: b :: c :: d :: ds := by
    generalize cs.takeWhile CLiteral.isHex = hs at h
    rcases hs with _ | ⟨a, _ | ⟨b, _ | ⟨c, _ | ⟨d, ds⟩⟩⟩⟩
    · exact absurd h (by decide)
    · exact absurd h (by simp)
    · exact absurd h (by simp)
    · exact absurd h (by simp)
    · exact ⟨a, b, c, d, ds, rfl⟩
  have hsplit := List.takeWhile_append_dropWhile (p := CLiteral.isHex) (l := cs)
  rw [heq] at hsplit
  refine ⟨a, b, c, d, ds ++ cs.dropWhile CLiteral.isHex, hsplit.symm, ?_⟩
  intro e he
  apply List.all_eq_true.1 (List.all_takeWhile (p := CLiteral.isHex) (l := cs))
  rw [heq]
  simp only [List.mem_cons, List.not_mem_nil, or_false] at he ⊢
  tauto

theorem raw_of_body {raw : List Char} (h : Body raw) : Raw (utf8 raw) := by
  induction h with
  | nil => exact .nil
  | @escape e cs he _ ih =>
    rw [utf8_ascii_cons (by decide)]
    rw [isEscape, Bool.or_eq_true] at he
    rcases he with he | he
    · simp only [List.contains_iff_mem, List.mem_cons, List.not_mem_nil, or_false] at he
      have hascii : e.toNat < 0x80 ∧ isSimpleEscape (ch e) = true := by
        rcases he with rfl | rfl | rfl | rfl | rfl | rfl | rfl | rfl <;> decide
      rw [utf8_ascii_cons hascii.1]
      exact .escape hascii.2 ih
    · rw [Bool.and_eq_true, beq_iff_eq, decide_eq_true_eq] at he
      obtain ⟨rfl, hlen⟩ := he
      obtain ⟨a, b, c, d, ds, rfl, hhex⟩ := hex_of_takeWhile hlen
      simp only [List.forall_mem_cons] at hhex
      obtain ⟨ha, hb, hc, hd, -⟩ := hhex
      obtain ⟨ha, hahex, haback⟩ := isHex_ch ha
      obtain ⟨hb, hbhex, hbback⟩ := isHex_ch hb
      obtain ⟨hc, hchex, hcback⟩ := isHex_ch hc
      obtain ⟨hd, hdhex, hdback⟩ := isHex_ch hd
      rw [utf8_ascii_cons ha, utf8_ascii_cons hb, utf8_ascii_cons hc, utf8_ascii_cons hd] at ih
      rw [utf8_ascii_cons (by decide), utf8_ascii_cons ha, utf8_ascii_cons hb, utf8_ascii_cons hc, utf8_ascii_cons hd]
      refine .unicode ?_ ((((ih.tail haback).tail hbback).tail hcback).tail hdback)
      rw [hahex, hbhex, hchex, hdhex]
      rfl
  | @char c cs hquote hback hc _ ih =>
    rw [utf8_cons]
    rcases utf8_char c with ⟨heq, hascii⟩ | ⟨-, hhigh⟩
    · rw [heq]
      exact .char (ch_ne hascii (by decide) hback) (ch_ne hascii (by decide) hquote) ih
    · exact ih.append_high hhigh

/-! ### Numbers -/

theorem isDigit_ch {c : Char} (h : c.isDigit = true) : c.toNat < 0x80 ∧ isDigit (ch c) = true := by
  have hascii : c.toNat < 0x80 := by
    simp only [Char.isDigit, Bool.and_eq_true, decide_eq_true_eq] at h
    exact Nat.lt_of_le_of_lt (UInt32.le_iff_toNat_le.1 h.2) (by decide)
  refine ⟨hascii, ?_⟩
  revert h
  refine ascii_cases (p := fun c => c.isDigit = true → isDigit (ch c) = true) ?_ hascii
  decide

theorem digits_utf8 {ds : List Char} (hne : ds ≠ []) (h : ds.all Char.isDigit = true) : IsDigits (utf8 ds) := by
  constructor
  · obtain ⟨d, ds, rfl⟩ := List.exists_cons_of_ne_nil hne
    rw [utf8_ascii_cons (isDigit_ch (List.all_eq_true.1 h d List.mem_cons_self)).1]
    exact List.cons_ne_nil _ _
  · clear hne
    induction ds with
    | nil => exact fun _ h => absurd h List.not_mem_nil
    | cons d ds ih =>
      rw [List.all_cons, Bool.and_eq_true] at h
      obtain ⟨hascii, hd⟩ := isDigit_ch h.1
      rw [utf8_ascii_cons hascii]
      exact List.forall_mem_cons.2 ⟨hd, ih h.2⟩

/-- The digits that a text begins with. -/
theorem digits_utf8_takeWhile {cs : List Char} (h : cs.takeWhile Char.isDigit ≠ []) :
    IsDigits (utf8 (cs.takeWhile Char.isDigit)) ∧
      utf8 cs = utf8 (cs.takeWhile Char.isDigit) ++ utf8 (cs.dropWhile Char.isDigit) := by
  refine ⟨digits_utf8 h List.all_takeWhile, ?_⟩
  rw [← utf8_append, List.takeWhile_append_dropWhile]

private theorem exp_of_isExp {cs : List Char} (h : Json.isExp cs = true) :
    ∃ e : Option ExpText, (∀ e' ∈ e, isExpMark e'.mark = true ∧ IsDigits e'.digits) ∧ utf8 cs = expText e := by
  have hsome (minus plus : Bool) {c : Char} {ds cs : List Char}
      (hc : (c == 'e' || c == 'E') = true) (hne : ds ≠ []) (hds : ds.all Char.isDigit = true)
      (hcs : utf8 cs = sign '-' minus ++ (sign '+' plus ++ utf8 ds)) :
      ∃ e : Option ExpText, (∀ e' ∈ e, isExpMark e'.mark = true ∧ IsDigits e'.digits) ∧ utf8 (c :: cs) = expText e := by
    rw [Bool.or_eq_true, beq_iff_eq, beq_iff_eq] at hc
    have hmark : c.toNat < 0x80 ∧ isExpMark (ch c) = true := by rcases hc with rfl | rfl <;> decide
    refine ⟨some ⟨ch c, minus, plus, utf8 ds⟩, ?_, ?_⟩
    · rintro _ ⟨⟩
      exact ⟨hmark.2, digits_utf8 hne hds⟩
    · rw [utf8_ascii_cons hmark.1, hcs]
      rfl
  cases cs with
  | nil =>
    refine ⟨none, ?_, rfl⟩
    intro e he
    cases he
  | cons c cs =>
    rw [Json.isExp.eq_def] at h
    dsimp only at h
    split at h
    next ds =>
      simp only [Bool.and_eq_true, bne_iff_ne] at h
      exact hsome false true h.1.1 h.1.2 h.2 (utf8_ascii_cons (by decide) ds)
    next ds =>
      simp only [Bool.and_eq_true, bne_iff_ne] at h
      exact hsome true false h.1.1 h.1.2 h.2 (utf8_ascii_cons (by decide) ds)
    next =>
      simp only [Bool.and_eq_true, bne_iff_ne] at h
      exact hsome false false h.1.1 h.1.2 h.2 rfl

private theorem frac_of_isFrac {cs : List Char} (h : Json.isFrac cs = true) :
    ∃ (f : Option (List UInt8)) (e : Option ExpText), (∀ ds ∈ f, IsDigits ds) ∧
      (∀ e' ∈ e, isExpMark e'.mark = true ∧ IsDigits e'.digits) ∧ utf8 cs = fracText f ++ expText e := by
  rw [Json.isFrac.eq_def] at h
  split at h
  next cs =>
    rw [Bool.and_eq_true, bne_iff_ne] at h
    obtain ⟨hds, hsplit⟩ := digits_utf8_takeWhile h.1
    obtain ⟨e, he, hexp⟩ := exp_of_isExp h.2
    refine ⟨some (utf8 (cs.takeWhile Char.isDigit)), e, ?_, he, ?_⟩
    · rintro _ ⟨⟩
      exact hds
    · rw [utf8_ascii_cons (by decide), hsplit, hexp]
      rfl
  next =>
    obtain ⟨e, he, hexp⟩ := exp_of_isExp h
    refine ⟨none, e, ?_, he, hexp⟩
    intro ds hds
    cases hds

theorem numText_of_isNumber {cs : List Char} (h : Json.isNumber cs = true) : ∃ n : NumText, n.Wf ∧ n.text = utf8 cs := by
  have hrest (minus : Bool) {ds : List Char} (hsplit : utf8 cs = sign '-' minus ++ utf8 ds)
      (h : ds.takeWhile Char.isDigit ≠ []) (hfrac : Json.isFrac (ds.dropWhile Char.isDigit) = true) :
      ∃ n : NumText, n.Wf ∧ n.text = utf8 cs := by
    obtain ⟨hint, hds⟩ := digits_utf8_takeWhile h
    obtain ⟨f, e, hf, he, htext⟩ := frac_of_isFrac hfrac
    exact ⟨⟨minus, utf8 (ds.takeWhile Char.isDigit), f, e⟩, ⟨hint, hf, he⟩, by rw [hsplit, hds, htext]; rfl⟩
  rw [Json.isNumber.eq_def] at h
  split at h
  next ds =>
    simp only [Bool.and_eq_true, bne_iff_ne] at h
    exact hrest true (utf8_ascii_cons (by decide) ds) h.1.1 h.2
  next =>
    simp only [Bool.and_eq_true, bne_iff_ne] at h
    exact hrest false rfl h.1.1 h.2

/-! ### Tokens -/

/-- The tokens stand in the text with blanks around them. -/
inductive Spaced : List Json.Token → List UInt8 → Prop
  | nil {b : List UInt8} (hb : Blank b) : Spaced [] b
  | cons {b s : List UInt8} {t : Json.Token} {ts : List Json.Token} (hb : Blank b) (h : Spaced ts s) :
    Spaced (t :: ts) (b ++ (utf8 t.text ++ s))

theorem Spaced.blank {ts : List Json.Token} {b : List UInt8} (hb : Blank b) (h : Spaced ts s) : Spaced ts (b ++ s) := by
  cases h with
  | nil hb' => exact .nil (blank_append hb hb')
  | cons hb' h =>
    rw [← List.append_assoc]
    exact .cons (blank_append hb hb') h

theorem spaced_of_lex {text : List Char} {ts : List Json.Token} (h : Json.lex text = some ts) : Spaced ts (utf8 text) := by
  fun_induction Json.lex text generalizing ts with
  | case1 =>
    cases h
    exact .nil (List.forall_mem_nil _)
  | case2 c cs hc ih =>
    simp only [Json.isSpace, List.contains_iff_mem, List.mem_cons, List.not_mem_nil, or_false] at hc
    have hascii : c.toNat < 0x80 ∧ isBlank (ch c) = true := by rcases hc with rfl | rfl | rfl | rfl <;> decide
    rw [utf8_ascii_cons hascii.1]
    exact (ih h).blank (List.forall_mem_singleton.2 hascii.2)
  | case3 c cs hspace hc ih =>
    obtain ⟨us, hlex, rfl⟩ := Option.map_eq_some_iff.1 h
    have hsplit : utf8 (c :: cs) = [] ++ (utf8 (Json.Token.punct c).text ++ utf8 cs) := by
      rw [List.nil_append, ← utf8_append, Json.Token.text, List.singleton_append]
    rw [hsplit]
    exact .cons (List.forall_mem_nil _) (ih hlex)
  | case4 => cases h
  | case5 cs raw rest hbody _ _ ih =>
    obtain ⟨us, hlex, rfl⟩ := Option.map_eq_some_iff.1 h
    obtain ⟨rfl, -⟩ := Json.body_spec hbody
    have hsplit : utf8 ('"' :: (raw ++ '"' :: rest)) = [] ++ (utf8 (Json.Token.str raw).text ++ utf8 rest) := by
      rw [List.nil_append, ← utf8_append, Json.Token.text, List.cons_append, List.append_assoc, List.singleton_append]
    rw [hsplit]
    exact .cons (List.forall_mem_nil _) (ih hlex)
  | case6 c cs hspace hpunct hquote ih =>
    obtain ⟨us, hlex, rfl⟩ := Option.map_eq_some_iff.1 h
    have hsplit : utf8 (c :: cs) = [] ++ (utf8 (Json.Token.word (c :: cs.takeWhile Json.isWordChar)).text ++
        utf8 (cs.dropWhile Json.isWordChar)) := by
      rw [List.nil_append, ← utf8_append, Json.Token.text, List.cons_append, List.takeWhile_append_dropWhile]
    rw [hsplit]
    exact .cons (List.forall_mem_nil _) (ih hlex)

/-! ### No zero byte -/

theorem zero_not_mem_utf8 {cs : List Char} (h : ∀ c ∈ cs, c.toNat ≠ 0) : 0 ∉ utf8 cs := by
  induction cs with
  | nil => exact List.not_mem_nil
  | cons c cs ih =>
    obtain ⟨hc, hcs⟩ := List.forall_mem_cons.1 h
    rw [utf8_cons, List.mem_append, not_or]
    refine ⟨?_, ih hcs⟩
    intro hzero
    rcases utf8_char c with ⟨heq, hascii⟩ | ⟨-, hhigh⟩
    · rw [heq, List.mem_singleton] at hzero
      have hnat := congrArg UInt8.toNat hzero
      rw [UInt8.toNat_ofNat', Nat.mod_eq_of_lt (by omega)] at hnat
      exact hc hnat.symm
    · exact absurd (hhigh 0 hzero) (by decide)

private theorem ne_zero_of_body {raw : List Char} (h : Body raw) : ∀ c ∈ raw, c.toNat ≠ 0 := by
  induction h with
  | nil => exact fun _ h => absurd h List.not_mem_nil
  | @escape e cs he _ ih =>
    refine List.forall_mem_cons.2 ⟨by decide, List.forall_mem_cons.2 ⟨?_, ih⟩⟩
    simp only [isEscape, Bool.or_eq_true, Bool.and_eq_true, beq_iff_eq, List.contains_iff_mem, List.mem_cons, List.not_mem_nil,
      or_false] at he
    rcases he with (rfl | rfl | rfl | rfl | rfl | rfl | rfl | rfl) | ⟨rfl, -⟩ <;> decide
  | char _ _ hc _ ih => exact List.forall_mem_cons.2 ⟨by omega, ih⟩

private theorem zero_not_mem_tokens {p : Part} {ts : List Json.Token} (h : Derives p ts) (hwf : ∀ t ∈ ts, t.Wf) :
    ∀ t ∈ ts, 0 ∉ utf8 t.text := by
  have hstr {raw : List Char} (h : (Json.Token.str raw).Wf) : 0 ∉ utf8 (Json.Token.str raw).text := by
    cases h with
    | str hraw =>
      apply zero_not_mem_utf8
      rw [Json.Token.text, List.forall_mem_cons, List.forall_mem_append, List.forall_mem_singleton]
      exact ⟨by decide, ne_zero_of_body hraw, by decide⟩
  have hpunct (c : Char) (hc : c.toNat ≠ 0) : 0 ∉ utf8 (Json.Token.punct c).text :=
    zero_not_mem_utf8 (List.forall_mem_singleton.2 hc)
  induction h with
  | null => exact List.forall_mem_singleton.2 (by decide)
  | true_ => exact List.forall_mem_singleton.2 (by decide)
  | false_ => exact List.forall_mem_singleton.2 (by decide)
  | @num cs h =>
    obtain ⟨n, hn, htext⟩ := numText_of_isNumber h
    rw [List.forall_mem_singleton, Json.Token.text, ← htext]
    exact hn.zero_not_mem
  | str raw => exact List.forall_mem_singleton.2 (hstr (hwf _ List.mem_cons_self))
  | arrNil => exact List.forall_mem_cons.2 ⟨hpunct _ (by decide), List.forall_mem_singleton.2 (hpunct _ (by decide))⟩
  | objNil => exact List.forall_mem_cons.2 ⟨hpunct _ (by decide), List.forall_mem_singleton.2 (hpunct _ (by decide))⟩
  | arr _ ih =>
    simp only [List.forall_mem_cons, List.forall_mem_append, List.not_mem_nil, false_implies, implies_true, and_true] at hwf ⊢
    exact ⟨hpunct _ (by decide), ih hwf.2.1, hpunct _ (by decide)⟩
  | obj _ ih =>
    simp only [List.forall_mem_cons, List.forall_mem_append, List.not_mem_nil, false_implies, implies_true, and_true] at hwf ⊢
    exact ⟨hpunct _ (by decide), ih hwf.2.1, hpunct _ (by decide)⟩
  | element _ ih => exact ih hwf
  | elements _ _ ih ihs =>
    simp only [List.forall_mem_cons, List.forall_mem_append] at hwf ⊢
    exact ⟨ih hwf.1, hpunct _ (by decide), ihs hwf.2.2⟩
  | member raw _ ih =>
    simp only [List.forall_mem_cons] at hwf ⊢
    exact ⟨hstr hwf.1, hpunct _ (by decide), ih hwf.2.2⟩
  | members raw _ _ ih ihs =>
    simp only [List.forall_mem_cons, List.forall_mem_append] at hwf ⊢
    exact ⟨hstr hwf.1, hpunct _ (by decide), ih hwf.2.2.1, hpunct _ (by decide), ihs hwf.2.2.2.2⟩

theorem Spaced.zero_not_mem {ts : List Json.Token} (h : Spaced ts s) (hts : ∀ t ∈ ts, 0 ∉ utf8 t.text) : 0 ∉ s := by
  have hblank {b : List UInt8} (hb : Blank b) : 0 ∉ b := fun hzero => absurd (hb 0 hzero) (by decide)
  induction h with
  | nil hb => exact hblank hb
  | cons hb _ ih =>
    obtain ⟨ht, hts⟩ := List.forall_mem_cons.1 hts
    rw [List.mem_append, List.mem_append, not_or, not_or]
    exact ⟨hblank hb, ht, ih hts⟩

/-! ### Values -/

variable [LwReal R]

/-- What the nodes say of a value, of the elements of an array and of the members of an object. Of a number they say what the 64-bit integers of the parser make of its text, which is exact where the groups of digits are small. -/
inductive Denotes : Part → Forest (Label R) → Prop
  | null {n : Option (List UInt8 × Nat)} : Denotes (.value .null) (.cons ⟨n, .null, .zero⟩ .nil .nil)
  | true_ {n : Option (List UInt8 × Nat)} : Denotes (.value (.bool true)) (.cons ⟨n, .true_, .zero⟩ .nil .nil)
  | false_ {n : Option (List UInt8 × Nat)} : Denotes (.value (.bool false)) (.cons ⟨n, .false_, .zero⟩ .nil .nil)
  | num {n : Option (List UInt8 × Nat)} {cs : List Char} {t : NumText} (ht : t.Wf) (htext : t.text = utf8 cs) :
    Denotes (.value (.num cs)) (.cons ⟨n, (t.value : LwjsonType × U R).1, (t.value : LwjsonType × U R).2⟩ .nil .nil)
  | str {n : Option (List UInt8 × Nat)} (raw : List Char) :
    Denotes (.value (.str (units raw))) (.cons ⟨n, .string, .str (utf8 raw) (utf8 raw).length⟩ .nil .nil)
  | arr {n : Option (List UInt8 × Nat)} {vs : List Value} {kids : Forest (Label R)} (h : Denotes (.elements vs) kids) :
    Denotes (.value (.arr vs)) (.cons ⟨n, .array, .zero⟩ kids .nil)
  | obj {n : Option (List UInt8 × Nat)} {ms : List (List Nat × Value)} {kids : Forest (Label R)} (h : Denotes (.members ms) kids) :
    Denotes (.value (.obj ms)) (.cons ⟨n, .object, .zero⟩ kids .nil)
  | elementsNil : Denotes (.elements []) .nil
  | elements {v : Value} {vs : List Value} {l : Label R} {kids rest : Forest (Label R)} (hname : l.name = none)
    (h : Denotes (.value v) (.cons l kids .nil)) (hs : Denotes (.elements vs) rest) : Denotes (.elements (v :: vs)) (.cons l kids rest)
  | membersNil : Denotes (.members []) .nil
  | members {raw : List Char} {v : Value} {ms : List (List Nat × Value)} {l : Label R} {kids rest : Forest (Label R)}
    (hname : l.name = some (utf8 raw, (utf8 raw).length)) (h : Denotes (.value v) (.cons l kids .nil))
    (hs : Denotes (.members ms) rest) : Denotes (.members ((units raw, v) :: ms)) (.cons l kids rest)

mutual

/-- The number of values in a value, itself with them. -/
def nodes : Value → Nat
  | .arr vs => nodesOfElements vs + 1
  | .obj ms => nodesOfMembers ms + 1
  | _ => 1

def nodesOfElements : List Value → Nat
  | [] => 0
  | v :: vs => nodes v + nodesOfElements vs

def nodesOfMembers : List (List Nat × Value) → Nat
  | [] => 0
  | (_, v) :: ms => nodes v + nodesOfMembers ms

end

def Part.nodes : Part → Nat
  | .value v => Lwjson.nodes v
  | .elements vs => nodesOfElements vs
  | .members ms => nodesOfMembers ms

theorem Denotes.size {p : Part} {f : Forest (Label R)} (h : Denotes p f) : f.size = Part.nodes p := by
  induction h with
  | null => rfl
  | true_ => rfl
  | false_ => rfl
  | num => rfl
  | str => rfl
  | arr _ ih => rw [Forest.size, Forest.size, ih, Part.nodes, Part.nodes, nodes]
  | obj _ ih => rw [Forest.size, Forest.size, ih, Part.nodes, Part.nodes, nodes]
  | elementsNil => rfl
  | elements _ _ _ ih ihs =>
    rw [Forest.size, Forest.size, Part.nodes] at ih
    rw [Forest.size, ihs, Part.nodes, Part.nodes, nodesOfElements, ← ih]
  | membersNil => rfl
  | members _ _ _ ih ihs =>
    rw [Forest.size, Forest.size, Part.nodes] at ih
    rw [Forest.size, ihs, Part.nodes, Part.nodes, nodesOfMembers, ← ih]

/-- The text of a value, and its node. -/
inductive IsValue : List UInt8 → LwjsonType → U R → Forest (Label R) → Prop
  | scalar {cs : List UInt8} {type : LwjsonType} {u : U R} (h : Scalar cs type u) : IsValue cs type u .nil
  | container {inner : List UInt8} {type : LwjsonType} {kids : Forest (Label R)} (htype : IsContainer type) (hopens : Opens inner)
    (h : Items type true true inner kids) : IsValue (opener type :: inner) type .zero kids

theorem IsValue.item {type vtype : LwjsonType} {closed : Bool} {b p w : List UInt8} {n : Option (List UInt8 × Nat)} {u : U R}
    {kids f : Forest (Label R)} (hv : IsValue w vtype u kids) (hb : Blank b) (hname : ChildName type p n)
    (hrest : ∀ free, Items type closed free s f) : Items type closed true (b ++ (p ++ (w ++ s))) (.cons ⟨n, vtype, u⟩ kids f) := by
  cases hv with
  | scalar h => exact .scalar hb hname h (hrest false)
  | container htype hopens h =>
    rw [List.cons_append]
    exact .container hb hname htype hopens h (hrest true)

theorem IsValue.startsValue {vtype : LwjsonType} {w : List UInt8} {u : U R} {kids : Forest (Label R)} (hv : IsValue w vtype u kids) :
    ∃ c t, w = c :: t ∧ StartsValue c := by
  cases hv with
  | scalar h =>
    obtain ⟨c, t, heq, hc, -⟩ := h.startsValue
    exact ⟨c, t, heq, hc⟩
  | container => exact ⟨_, _, rfl, (startsValue_opener _).1⟩

theorem IsValue.opens {type vtype : LwjsonType} {b p w : List UInt8} {n : Option (List UInt8 × Nat)} {u : U R}
    {kids : Forest (Label R)} (hv : IsValue w vtype u kids) (hb : Blank b) (hname : ChildName type p n) (s : List UInt8) :
    Opens (b ++ (p ++ (w ++ s))) := by
  obtain ⟨c, t, rfl, hc⟩ := hv.startsValue
  obtain ⟨d, v, heq, hd, hstart⟩ := hname.begins hc (t ++ s)
  rw [List.cons_append, heq, Opens, List.dropWhile_append_of_pos hb,
    List.dropWhile_cons_of_neg (by rw [hd]; exact Bool.false_ne_true)]
  rintro ⟨rfl⟩
  rcases hstart with ⟨-, h⟩ | ⟨-, h⟩
  · exact absurd h (by decide)
  · exact absurd h (by decide)

/-- The characters of the contents of a container, up to its closing bracket, with the tokens that follow. -/
def ReadsItems (type : LwjsonType) (c : Char) (p : Part) (ts : List Json.Token) : Prop :=
  ∀ us s, Spaced (ts ++ .punct c :: us) s → ∃ inner s' f, s = inner ++ s' ∧ Spaced us s' ∧ Opens inner ∧
    Items type true true inner f ∧ Denotes (R := R) p f

/-- The characters of what the tokens derive, with the tokens that follow. -/
def Reads : Part → List Json.Token → Prop
  | .value v, ts => ∀ us s, Spaced (ts ++ us) s → ∃ b w s' type u kids, Blank b ∧ s = b ++ (w ++ s') ∧ Spaced us s' ∧
      IsValue w type u kids ∧ ∀ n, Denotes (R := R) (.value v) (.cons ⟨n, type, u⟩ kids .nil)
  | .elements vs, ts => ReadsItems (R := R) .array ']' (.elements vs) ts
  | .members ms, ts => ReadsItems (R := R) .object '\x7d' (.members ms) ts

omit [LwReal R] in
theorem spaced_punct {c : Char} (hc : c.toNat < 0x80) {us : List Json.Token} (h : Spaced (.punct c :: us) s) :
    ∃ b s', Blank b ∧ s = b ++ ch c :: s' ∧ Spaced us s' := by
  cases h with
  | @cons b s' _ _ hb h =>
    refine ⟨b, s', hb, ?_, h⟩
    rw [Json.Token.text, utf8_ascii_cons hc]
    rfl

omit [LwReal R] in
/-- A name, its colon and the blanks before the value. -/
theorem spaced_name {raw : List Char} {us : List Json.Token} (h : Spaced (.str raw :: .punct ':' :: us) s) :
    ∃ b b₁ s', Blank b ∧ Blank b₁ ∧ s = b ++ (ch '"' :: (utf8 raw ++ ch '"' :: (b₁ ++ ch ':' :: s'))) ∧ Spaced us s' := by
  cases h with
  | @cons b s _ _ hb h =>
    obtain ⟨b₁, s', hb₁, rfl, hrest⟩ := spaced_punct (by decide) h
    refine ⟨b, b₁, s', hb, hb₁, ?_, hrest⟩
    rw [Json.Token.text, utf8_ascii_cons (by decide), utf8_append, utf8_ascii_cons (by decide)]
    simp only [List.cons_append, List.append_assoc]
    rfl

/-- The last child of a container, and its closing bracket. -/
theorem readsItems_last {type vtype : LwjsonType} {c : Char} (hc : c.toNat < 0x80) (hcloser : ch c = closer type)
    {b p w : List UInt8} {n : Option (List UInt8 × Nat)} {u : U R} {kids : Forest (Label R)} {us : List Json.Token}
    (hv : IsValue w vtype u kids) (hb : Blank b) (hname : ChildName type p n) (h : Spaced (.punct c :: us) s) :
    ∃ inner s', b ++ (p ++ (w ++ s)) = inner ++ s' ∧ Spaced us s' ∧ Opens inner ∧
      Items type true true inner (.cons ⟨n, vtype, u⟩ kids .nil) := by
  obtain ⟨b', s', hb', rfl, hrest⟩ := spaced_punct hc h
  refine ⟨b ++ (p ++ (w ++ (b' ++ [closer type]))), s', ?_, hrest, hv.opens hb hname _, hv.item hb hname fun _ => .close hb'⟩
  rw [hcloser]
  simp only [List.append_assoc, List.singleton_append]

/-- A child of a container, and a comma. -/
theorem readsItems_comma {type vtype : LwjsonType} {b p w inner : List UInt8} {n : Option (List UInt8 × Nat)} {u : U R}
    {kids f : Forest (Label R)} (hv : IsValue w vtype u kids) (hb : Blank b) (hname : ChildName type p n) {b' : List UInt8}
    (hb' : Blank b') (hitems : Items type true true inner f) :
    Opens (b ++ (p ++ (w ++ (b' ++ ch ',' :: inner)))) ∧
      Items type true true (b ++ (p ++ (w ++ (b' ++ ch ',' :: inner)))) (.cons ⟨n, vtype, u⟩ kids f) :=
  ⟨hv.opens hb hname _, hv.item hb hname fun _ => .comma hb' hitems⟩

theorem reads_of_derives {p : Part} {ts : List Json.Token} (h : Derives p ts) (hwf : ∀ t ∈ ts, t.Wf) : Reads (R := R) p ts := by
  have hword {w : List Char} {v : Value} {type : LwjsonType} {u : U R} (hw : Scalar (utf8 w) type u)
      (hv : ∀ n, Denotes (.value v) (.cons ⟨n, type, u⟩ .nil .nil)) : Reads (R := R) (.value v) [.word w] := by
    intro us s hs
    cases hs with
    | @cons b s' _ _ hb hs => exact ⟨b, _, s', type, u, .nil, hb, rfl, hs, .scalar hw, hv⟩
  have hempty {c d : Char} {v : Value} {type : LwjsonType} (htype : IsContainer type) (hc : c.toNat < 0x80 ∧ ch c = opener type)
      (hd : d.toNat < 0x80 ∧ ch d = closer type) (hv : ∀ n, Denotes (R := R) (.value v) (.cons ⟨n, type, .zero⟩ .nil .nil)) :
      Reads (R := R) (.value v) [.punct c, .punct d] := by
    intro us s hs
    obtain ⟨b, s', hb, rfl, hs'⟩ := spaced_punct hc.1 hs
    obtain ⟨b', s'', hb', rfl, hrest⟩ := spaced_punct hd.1 hs'
    have hopens : Opens (b' ++ [closer type]) := by
      rw [Opens, List.dropWhile_append_of_pos hb', List.dropWhile_cons_of_neg (by rw [(closer_spec type).1]; exact Bool.false_ne_true)]
      exact fun h => (closer_spec type).2 (Option.some.inj h)
    refine ⟨b, opener type :: (b' ++ [closer type]), s'', type, .zero, .nil, hb, ?_, hrest, .container htype hopens (.close hb'), hv⟩
    rw [hc.2, hd.2]
    simp only [List.cons_append, List.append_assoc, List.nil_append]
  have hfull {c d : Char} {v : Value} {p : Part} {ts : List Json.Token} {type : LwjsonType} (htype : IsContainer type)
      (hc : c.toNat < 0x80 ∧ ch c = opener type) (hitems : ReadsItems (R := R) type d p ts)
      (hv : ∀ kids n, Denotes (R := R) p kids → Denotes (R := R) (.value v) (.cons ⟨n, type, .zero⟩ kids .nil)) :
      Reads (R := R) (.value v) (.punct c :: (ts ++ [.punct d])) := by
    intro us s hs
    rw [List.cons_append, List.append_assoc, List.singleton_append] at hs
    obtain ⟨b, s', hb, rfl, hs'⟩ := spaced_punct hc.1 hs
    obtain ⟨inner, s'', kids, rfl, hrest, hopens, hinner, hdenotes⟩ := hitems us s' hs'
    refine ⟨b, opener type :: inner, s'', type, .zero, kids, hb, ?_, hrest, .container htype hopens hinner, fun n => hv kids n hdenotes⟩
    rw [hc.2, List.cons_append]
  induction h with
  | null => exact hword .null fun _ => .null
  | true_ => exact hword .true_ fun _ => .true_
  | false_ => exact hword .false_ fun _ => .false_
  | @num cs h =>
    obtain ⟨n, hn, htext⟩ := numText_of_isNumber h
    exact hword (htext ▸ .number hn) fun _ => .num hn htext
  | str raw =>
    have hraw : Body raw := by
      cases hwf _ List.mem_cons_self with
      | str hraw => exact hraw
    intro us s hs
    cases hs with
    | @cons b s' _ _ hb hs =>
      refine ⟨b, _, s', .string, .str (utf8 raw) (utf8 raw).length, .nil, hb, rfl, hs, ?_, fun _ => .str raw⟩
      rw [Json.Token.text, utf8_ascii_cons (by decide), utf8_append, utf8_ascii_cons (by decide)]
      exact .scalar (.string (raw_of_body hraw))
  | arrNil => exact hempty (.inr rfl) ⟨by decide, rfl⟩ ⟨by decide, rfl⟩ fun _ => .arr .elementsNil
  | objNil => exact hempty (.inl rfl) ⟨by decide, rfl⟩ ⟨by decide, rfl⟩ fun _ => .obj .membersNil
  | arr _ ih =>
    exact hfull (.inr rfl) ⟨by decide, rfl⟩ (ih fun t ht => hwf t (List.mem_cons_of_mem _ (List.mem_append_left _ ht)))
      fun _ _ => .arr
  | obj _ ih =>
    exact hfull (.inl rfl) ⟨by decide, rfl⟩ (ih fun t ht => hwf t (List.mem_cons_of_mem _ (List.mem_append_left _ ht)))
      fun _ _ => .obj
  | element _ ih =>
    intro us s hs
    obtain ⟨b, w, s', type, u, kids, hb, rfl, hs', hv, hdenotes⟩ := ih hwf _ s hs
    obtain ⟨inner, s'', heq, hrest, hopens, hitems⟩ := readsItems_last (by decide) rfl hv hb .array hs'
    exact ⟨inner, s'', _, heq, hrest, hopens, hitems, .elements rfl (hdenotes none) .elementsNil⟩
  | @elements v vs ts us _ _ ih ihs =>
    obtain ⟨hts, hus⟩ := List.forall_mem_append.1 hwf
    intro us' s hs
    rw [List.append_assoc, List.cons_append] at hs
    obtain ⟨b, w, s₁, type, u, kids, hb, rfl, hs₁, hv, hdenotes⟩ := ih hts _ s hs
    obtain ⟨b', s₂, hb', rfl, hs₂⟩ := spaced_punct (by decide) hs₁
    obtain ⟨inner, s₃, f, rfl, hs₃, -, hitems, hrest⟩ := ihs (List.forall_mem_cons.1 hus).2 us' s₂ hs₂
    obtain ⟨hopens, hall⟩ := readsItems_comma hv hb .array hb' hitems
    refine ⟨_, s₃, _, ?_, hs₃, hopens, hall, .elements rfl (hdenotes none) hrest⟩
    simp only [List.append_assoc, List.cons_append, List.nil_append]
  | @member raw v ts _ ih =>
    have hraw : Body raw := by
      cases hwf _ List.mem_cons_self with
      | str hraw => exact hraw
    intro us s hs
    obtain ⟨b, b₁, s₁, hb, hb₁, rfl, hs₁⟩ := spaced_name hs
    obtain ⟨b₂, w, s₂, type, u, kids, hb₂, rfl, hs₂, hv, hdenotes⟩ :=
      ih (fun t ht => hwf t (List.mem_cons_of_mem _ (List.mem_cons_of_mem _ ht))) _ s₁ hs₁
    obtain ⟨inner, s₃, heq, hs₃, hopens, hitems⟩ :=
      readsItems_last (by decide) rfl hv hb (.object (raw_of_body hraw) hb₁ hb₂) hs₂
    refine ⟨inner, s₃, _, ?_, hs₃, hopens, hitems, .members rfl (hdenotes _) .membersNil⟩
    rw [← heq]
    simp only [List.append_assoc, List.cons_append]
  | @members raw v ms ts us _ _ ih ihs =>
    have hraw : Body raw := by
      cases hwf _ List.mem_cons_self with
      | str hraw => exact hraw
    obtain ⟨hts, hus⟩ := List.forall_mem_append.1 (List.forall_mem_cons.1 (List.forall_mem_cons.1 hwf).2).2
    intro us' s hs
    rw [List.cons_append, List.cons_append, List.append_assoc, List.cons_append] at hs
    obtain ⟨b, b₁, s₁, hb, hb₁, rfl, hs₁⟩ := spaced_name hs
    obtain ⟨b₂, w, s₂, type, u, kids, hb₂, rfl, hs₂, hv, hdenotes⟩ := ih hts _ s₁ hs₁
    obtain ⟨b', s₃, hb', rfl, hs₃⟩ := spaced_punct (by decide) hs₂
    obtain ⟨inner, s₄, f, rfl, hs₄, -, hitems, hrest⟩ := ihs (List.forall_mem_cons.1 hus).2 us' s₃ hs₃
    obtain ⟨hopens, hall⟩ := readsItems_comma hv hb (.object (raw_of_body hraw) hb₁ hb₂) hb' hitems
    refine ⟨_, s₄, _, ?_, hs₄, hopens, hall, .members rfl (hdenotes _) hrest⟩
    simp only [List.append_assoc, List.cons_append]

/-! ### JSON texts -/

theorem denotes_container {v : Value} {l : Label R} {kids : Forest (Label R)}
    (hv : (∃ vs, v = .arr vs) ∨ ∃ ms, v = .obj ms) (h : Denotes (.value v) (.cons l kids .nil)) : IsContainer l.type := by
  rcases hv with ⟨vs, rfl⟩ | ⟨ms, rfl⟩
  · cases h
    exact .inr rfl
  · cases h
    exact .inl rfl

/-- A JSON text of a container is a text of the language, whose tree says its value. -/
theorem document_of_parses {text : List Char} {v : Value} (h : Json.Parses text v)
    (hv : (∃ vs, v = .arr vs) ∨ ∃ ms, v = .obj ms) :
    0 ∉ utf8 text ∧ ∃ tree : Tree R, Document (utf8 text) tree ∧ Denotes (.value v) (.cons tree.1 tree.2 .nil) := by
  obtain ⟨ts, hlex, hderives⟩ := h
  have hwf := Json.wf_of_lex hlex
  have hspaced := spaced_of_lex hlex
  refine ⟨hspaced.zero_not_mem (zero_not_mem_tokens hderives hwf), ?_⟩
  obtain ⟨b, w, b', type, u, kids, hb, htext, hb', hvalue, hdenotes⟩ :=
    reads_of_derives (R := R) hderives hwf [] (utf8 text) (by rw [List.append_nil]; exact hspaced)
  have htype := denotes_container hv (hdenotes none)
  cases hb' with
  | nil hb' =>
    cases hvalue with
    | scalar h => exact (h.not_container htype).elim
    | container htype hopens h =>
      refine ⟨(⟨none, type, .zero⟩, kids), ?_, hdenotes none⟩
      rw [htext, List.cons_append]
      exact .closed hb hb' htype hopens h

/-- A text of the language and its tree, with room for it or not. -/
theorem lwjsonParse_document {text : List UInt8} {tree : Tree R} (o : LwjsonT R) (h0 : 0 ∉ text) (h : Document text tree)
    (junk : List UInt8) : ∃ r o', lwjsonParse o (text ++ 0 :: junk) = some (r, o') ∧
      if tree.2.size ≤ o.tokens.length then r = .ok ∧ Shows o' tree else r = .errMem := by
  have hne : text.length ≠ 0 := mt List.eq_nil_of_length_eq_zero h.ne_nil
  obtain ⟨r, o', heq, -, hcode⟩ := lwjsonParseEx_spec o h0 hne junk
  rw [List.take_length] at hcode
  refine ⟨r, o', (lwjsonParse_eq o h0 junk).trans heq, ?_⟩
  split
  next hroom =>
    obtain ⟨tree', htree', htrim⟩ := h.parseText_eq hroom
    rw [htree'] at hcode
    exact ⟨hcode.1, htrim ▸ hcode.2⟩
  next hfull =>
    have hmem := h.parseText_errMem (Nat.not_le.1 hfull)
    rw [hmem] at hcode
    exact hcode

/-- The tokens of a text whose tree says a value. -/
theorem lwjsonParse_denotes {text : List UInt8} {tree : Tree R} {v : Value} (o : LwjsonT R) (h0 : 0 ∉ text) (h : Document text tree)
    (hdenotes : Denotes (.value v) (.cons tree.1 tree.2 .nil)) (junk : List UInt8) :
    ∃ r o', lwjsonParse o (text ++ 0 :: junk) = some (r, o') ∧
      if nodes v ≤ o.tokens.length + 1 then
        r = .ok ∧ ∃ tree, Shows o' tree ∧ Denotes (.value v) (.cons tree.1 tree.2 .nil)
      else r = .errMem := by
  obtain ⟨r, o', heq, hcode⟩ := lwjsonParse_document o h0 h junk
  have hsize : tree.2.size + 1 = nodes v := hdenotes.size
  refine ⟨r, o', heq, ?_⟩
  rw [← hsize]
  by_cases hroom : tree.2.size ≤ o.tokens.length
  · rw [if_pos hroom] at hcode
    rw [if_pos (Nat.succ_le_succ hroom)]
    exact ⟨hcode.1, tree, hcode.2, hdenotes⟩
  · rw [if_neg hroom] at hcode
    rw [if_neg (mt Nat.le_of_succ_le_succ hroom)]
    exact hcode

/-- **Of every JSON text of an array or an object, in UTF-8, `lwjson_parse` makes the tokens that say its value, one in the array for each value inside of it, or the code `lwjsonERRMEM` where the array has fewer.** -/
theorem lwjsonParse_json {text : List Char} {v : Value} (h : Json.Parses text v) (hv : (∃ vs, v = .arr vs) ∨ ∃ ms, v = .obj ms)
    (o : LwjsonT R) (junk : List UInt8) :
    ∃ r o', lwjsonParse o (utf8 text ++ 0 :: junk) = some (r, o') ∧
      if nodes v ≤ o.tokens.length + 1 then
        r = .ok ∧ ∃ tree, Shows o' tree ∧ Denotes (.value v) (.cons tree.1 tree.2 .nil)
      else r = .errMem := by
  obtain ⟨h0, tree, hdoc, hdenotes⟩ := document_of_parses (R := R) h hv
  exact lwjsonParse_denotes o h0 hdoc hdenotes junk

/-- `{"a": ["x",7]}` -/
def spacedText : List Char := ['\x7b', '"', 'a', '"', ':', ' ', '[', '"', 'x', '"', ',', '7', ']', '\x7d']

def spacedValue : Value := .obj [(Json.units ['a'], .arr [.str (Json.units ['x']), .num ['7']])]

omit [LwReal R] in
theorem parses_spaced : Json.Parses spacedText spacedValue := by
  have hbody (c : Char) (hquote : c ≠ '"') (hback : c ≠ '\\') (hc : 0x20 ≤ c.toNat) : Json.Body [c] := .char hquote hback hc .nil
  have ha : Json.Body ['a'] := hbody _ (by decide) (by decide) (by decide)
  have hx : Json.Body ['x'] := hbody _ (by decide) (by decide) (by decide)
  have harr : Json.Derives (.value (.arr [.str (Json.units ['x']), .num ['7']])) _ :=
    .arr (.elements (.str ['x']) (.element (@Json.Derives.num ['7'] rfl)))
  refine ⟨_, ?_, .obj (.member ['a'] harr)⟩
  have hname (rest : List Char) : Json.lex ('"' :: 'a' :: '"' :: rest) = (Json.lex rest).map fun ts => .str ['a'] :: ts :=
    Json.lex_str ha rest
  -- behind the space the text is that of its tokens
  have hrest : Json.lex ['[', '"', 'x', '"', ',', '7', ']', '\x7d'] = some _ :=
    @Json.lex_flatMap_text [.punct '[', .str ['x'], .punct ',', .word ['7'], .punct ']', .punct '\x7d'] ?_ ?_
  · rw [spacedText, Json.lex_punct rfl, hname, Json.lex_punct rfl, Json.lex_space rfl, hrest]
    rfl
  · simp only [List.forall_mem_cons]
    exact ⟨.punct rfl, .str hx, .punct rfl, .word (List.forall_mem_singleton.2 rfl), .punct rfl, .punct rfl, List.forall_mem_nil _⟩
  · simp [Json.Apart, Json.Token.IsPunct]

theorem lwjsonParse_json_spaced :
    ∃ r o', lwjsonParse (lwjsonInit (List.replicate 3 .zero) : LwjsonT ℚ) (utf8 spacedText ++ [0]) = some (r, o') ∧
      r = .ok ∧ ∃ tree, Shows o' tree ∧ Denotes (.value spacedValue) (.cons tree.1 tree.2 .nil) := by
  obtain ⟨r, o', heq, hcode⟩ :=
    lwjsonParse_json parses_spaced (.inr ⟨_, rfl⟩) (lwjsonInit (List.replicate 3 .zero) : LwjsonT ℚ) []
  rw [if_pos (by decide)] at hcode
  exact ⟨r, o', heq, hcode⟩

open CJsonGen in
/-- **Where `cjsongen.py` keeps a JSON text of an array or an object, `lwjson_parse` makes of the array of the printed source the tokens that say the value of the text.** -/
theorem cjsongen_lwjsonParse {name text : List Char} {v : Value} (hname : IsIdent name) (h : Json.Parses text v)
    (hv : (∃ vs, v = .arr vs) ∨ ∃ ms, v = .obj ms) (hascii : ∀ c ∈ text, c.toNat < 0x80) (hcomment : ¬ ['*', '/'] <:+: text)
    (o : LwjsonT R) (junk : List UInt8) :
    ∃ out bytes, cjsongen name text = some out ∧ (∀ bs, CSource.Defines out name bs ↔ bs = bytes) ∧
      ∃ r o', lwjsonParse o (bytes ++ junk) = some (r, o') ∧
        if nodes v ≤ o.tokens.length + 1 then
          r = .ok ∧ ∃ tree, Shows o' tree ∧ Denotes (.value v) (.cons tree.1 tree.2 .nil)
        else r = .errMem := by
  obtain ⟨ts, hlex, -⟩ := id h
  obtain ⟨h0, tree, hdoc, hdenotes⟩ := document_of_parses (R := R) ((Json.parses_compact h v).2 h) hv
  have hbytes : utf8 (Json.compact text) ++ [0] = ((Json.compact text).map Char.toNat ++ [0]).map UInt8.ofNat := by
    rw [CLiteral.utf8_of_ascii ((ascii_compact hlex).2 hascii), List.map_append, List.map_map]
    rfl
  refine ⟨_, utf8 (Json.compact text) ++ [0], cjsongen_eq hlex name, ?_, ?_⟩
  · intro bs
    rw [hbytes]
    exact defines_iff hname hcomment bs
  · rw [List.append_assoc]
    exact lwjsonParse_denotes o h0 hdoc hdenotes junk

open CJsonGen in
theorem cjsongen_lwjsonParse_spaced :
    ∃ out bytes, cjsongen ['j'] spacedText = some out ∧ (∀ bs, CSource.Defines out ['j'] bs ↔ bs = bytes) ∧
      ∃ r o', lwjsonParse (lwjsonInit (List.replicate 3 .zero) : LwjsonT ℚ) (bytes ++ []) = some (r, o') ∧
        r = .ok ∧ ∃ tree, Shows o' tree ∧ Denotes (.value spacedValue) (.cons tree.1 tree.2 .nil) := by
  have hname : IsIdent ['j'] := ⟨'j', [], rfl, rfl, fun _ h => absurd h List.not_mem_nil⟩
  have hall : spacedText.all (fun c => c.toNat < 0x80) = true := rfl
  have hascii : ∀ c ∈ spacedText, c.toNat < 0x80 := fun c hc => of_decide_eq_true (List.all_eq_true.1 hall c hc)
  obtain ⟨out, bytes, hout, hdefines, r, o', heq, hcode⟩ := cjsongen_lwjsonParse hname parses_spaced (.inr ⟨_, rfl⟩) hascii
    (by decide) (lwjsonInit (List.replicate 3 .zero) : LwjsonT ℚ) []
  have hroom : nodes spacedValue ≤ (lwjsonInit (List.replicate 3 .zero) : LwjsonT ℚ).tokens.length + 1 := by decide
  rw [if_pos hroom] at hcode
  exact ⟨out, bytes, hout, hdefines, r, o', heq, hcode⟩

end Vedruino.Lwjson
