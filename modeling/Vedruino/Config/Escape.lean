import Vedruino.Lib.CLiteral
import Vedruino.Config.Header

/-!
# Strings in the header

`escape_str` puts a backslash before quotes and turns line breaks into escapes, but it leaves the backslashes of the value. The text is read back with the grammar of C.
-/

namespace Vedruino.Config

open CLiteral

/-- `str.replace` of one character. -/
def replace (c : Char) (new s : List Char) : List Char := s.flatMap fun d => if d = c then new else [d]

def escapeStr (s : List Char) : List Char := replace '\n' ['\\', 'n'] (replace '"' ['\\', '"'] s)

/-- What `add_def` writes after the name of the macro. -/
def Value.text : Value → List Char
  | .int n => (toString n).toList
  | .str s => '"' :: (escapeStr s.toList ++ ['"'])

/-- The text of an escaped value up to its closing quote. -/
def body (v : List Char) : List Char := escapeStr v ++ ['"']

private theorem body_nil : body [] = ['"'] := rfl

theorem body_quote (v : List Char) : body ('"' :: v) = '\\' :: '"' :: body v := rfl

theorem body_newline (v : List Char) : body ('\n' :: v) = '\\' :: 'n' :: body v := rfl

theorem body_cons {c : Char} (hquote : c ≠ '"') (hline : c ≠ '\n') (v : List Char) : body (c :: v) = c :: body v := by
  simp [body, escapeStr, replace, hquote, hline]

/-- Every other character than the backslash is read as it stands in the value. -/
theorem chars_body_cons {c : Char} (hback : c ≠ '\\') (v : List Char) :
    chars (body (c :: v)) = (chars (body v)).map fun r => (String.utf8EncodeChar c ++ r.1, r.2) := by
  by_cases hquote : c = '"'
  · rw [hquote, body_quote]
    exact chars_escape rfl
  · by_cases hline : c = '\n'
    · rw [hline, body_newline]
      exact chars_escape rfl
    · rw [body_cons hquote hline, chars_ordinary hquote hline hback]

private theorem body_ne_nil (v : List Char) : body v ≠ [] := List.append_ne_nil_of_right_ne_nil _ (List.cons_ne_nil _ _)

/-- Digits of an escape are digits of the value. -/
theorem exists_of_digits {ds rest v : List Char} (hds : ∀ d ∈ ds, isHex d = true) (h : ds ++ rest = body v) :
    ∃ v', v = ds ++ v' ∧ rest = body v' := by
  induction ds generalizing v with
  | nil => exact ⟨v, rfl, h⟩
  | cons d ds ih =>
    obtain ⟨hd, hds⟩ := List.forall_mem_cons.1 hds
    have hquote : d ≠ '"' := by
      rintro rfl
      exact Bool.noConfusion hd
    have hback : d ≠ '\\' := by
      rintro rfl
      exact Bool.noConfusion hd
    rw [List.cons_append] at h
    cases v with
    | nil => exact absurd (List.cons.inj h).1 hquote
    | cons c v =>
      by_cases hc : c = '"'
      · rw [hc, body_quote] at h
        exact absurd (List.cons.inj h).1 hback
      · by_cases hline : c = '\n'
        · rw [hline, body_newline] at h
          exact absurd (List.cons.inj h).1 hback
        · rw [body_cons hc hline] at h
          obtain ⟨rfl, htail⟩ := List.cons.inj h
          obtain ⟨v', rfl, hrest⟩ := ih hds htail
          exact ⟨v', rfl, hrest⟩

/-- How a value is read from a backslash on: with a line break it makes an escaped backslash and an `n`, otherwise an escape that denotes fewer bytes. -/
theorem chars_body_backslash {v : List Char} {bs : List UInt8} (h : chars (body ('\\' :: v)) = some (bs, [])) :
    (∃ v' bs', v = '\n' :: v' ∧ bs = 0x5c :: 0x6e :: bs' ∧ chars (body v') = some (bs', [])) ∨
      ∃ w v' bs₁ bs₂, v = w ++ v' ∧ w ≠ [] ∧ bs = bs₁ ++ bs₂ ∧ bs₁.length ≤ w.length ∧ chars (body v') = some (bs₂, []) := by
  rw [body_cons (by decide) (by decide)] at h
  obtain ⟨bs₁, rest, bs₂, hescape, hrest, rfl⟩ := exists_escape h
  obtain ⟨c, ds, hcs, hds, hlen, hsimple⟩ := escape_consumes hescape
  cases v with
  | nil =>
    obtain ⟨-, hnil⟩ := List.cons.inj hcs
    rw [(List.append_eq_nil_iff.1 hnil.symm).2, chars] at hrest
    cases hrest
  | cons d v =>
    by_cases hd : d = '"'
    · rw [hd, body_quote] at hcs
      obtain ⟨hc, htail⟩ := List.cons.inj hcs
      obtain ⟨rfl, -⟩ := hsimple 0x5c (by rw [← hc]; rfl)
      rw [← List.nil_append rest, ← htail, chars_quote] at hrest
      exact absurd (congrArg Prod.snd (Option.some.inj hrest)) (body_ne_nil v)
    · by_cases hline : d = '\n'
      · rw [hline, body_newline] at hcs
        obtain ⟨hc, htail⟩ := List.cons.inj hcs
        obtain ⟨rfl, rfl⟩ := hsimple 0x5c (by rw [← hc]; rfl)
        rw [← List.nil_append rest, ← htail, chars_ordinary (by decide) (by decide) (by decide), Option.map_eq_some_iff] at hrest
        obtain ⟨⟨bs', rest'⟩, hbody, heq⟩ := hrest
        cases heq
        exact .inl ⟨v, bs', by rw [hline], rfl, hbody⟩
      · rw [body_cons hd hline] at hcs
        obtain ⟨rfl, htail⟩ := List.cons.inj hcs
        obtain ⟨v', rfl, rfl⟩ := exists_of_digits hds htail.symm
        exact .inr ⟨d :: ds, v', bs₁, bs₂, rfl, List.cons_ne_nil d ds, rfl, hlen, hrest⟩

theorem chars_body_cons_eq_some {c : Char} (hback : c ≠ '\\') {v : List Char} {bs : List UInt8}
    (h : chars (body (c :: v)) = some (bs, [])) : ∃ bs', bs = String.utf8EncodeChar c ++ bs' ∧ chars (body v) = some (bs', []) := by
  rw [chars_body_cons hback, Option.map_eq_some_iff] at h
  obtain ⟨⟨bs', rest⟩, hbody, heq⟩ := h
  cases heq
  exact ⟨bs', rfl, hbody⟩

/-- A text never denotes more bytes than the value has. -/
theorem length_chars_body {v : List Char} {bs : List UInt8} (h : chars (body v) = some (bs, [])) :
    bs.length ≤ (utf8 v).length := by
  induction hn : v.length using Nat.strongRecOn generalizing v bs with
  | ind n ih =>
    cases v with
    | nil =>
      rw [body_nil, chars_quote] at h
      cases h
      exact Nat.zero_le _
    | cons c v =>
      rw [List.length_cons] at hn
      by_cases hback : c = '\\'
      · subst hback
        rcases chars_body_backslash h with ⟨v', bs', rfl, rfl, hbody⟩ | ⟨w, v', bs₁, bs₂, rfl, hw, rfl, hlen, hbody⟩
        · have hrest := ih v'.length (by rw [List.length_cons] at hn; omega) hbody rfl
          have hutf8 : utf8 ('\\' :: '\n' :: v') = 0x5c :: 0x0a :: utf8 v' := rfl
          rw [hutf8, List.length_cons, List.length_cons, List.length_cons, List.length_cons]
          omega
        · have hrest := ih v'.length (by rw [List.length_append] at hn; omega) hbody rfl
          have hle := length_le_utf8 w
          rw [utf8_cons, utf8_append, List.length_append, List.length_append, List.length_append]
          omega
      · obtain ⟨bs', rfl, hbody⟩ := chars_body_cons_eq_some hback h
        have hrest := ih v.length (by omega) hbody rfl
        rw [utf8_cons, List.length_append, List.length_append]
        omega

private theorem chars_body_of_not_mem {v : List Char} (h : '\\' ∉ v) : chars (body v) = some (utf8 v, []) := by
  induction v with
  | nil => exact chars_quote []
  | cons c v ih =>
    obtain ⟨hback, hrest⟩ := not_or.1 (mt List.mem_cons.2 h)
    rw [chars_body_cons (Ne.symm hback), ih hrest]
    rfl

/-- The first backslash of a value is lost: what is read instead of it and the rest is too short, or goes on with an `n`. -/
theorem not_mem_of_chars_body {v : List Char} (h : chars (body v) = some (utf8 v, [])) : '\\' ∉ v := by
  induction v with
  | nil => exact List.not_mem_nil
  | cons c v ih =>
    by_cases hback : c = '\\'
    · subst hback
      have hutf8 : utf8 ('\\' :: v) = 0x5c :: utf8 v := rfl
      rcases chars_body_backslash h with ⟨v', bs', rfl, heq, -⟩ | ⟨w, v', bs₁, bs₂, rfl, -, heq, hlen, hbody⟩
      · have hline : utf8 ('\n' :: v') = 0x0a :: utf8 v' := rfl
        rw [hutf8, hline] at heq
        exact absurd (List.cons.inj (List.cons.inj heq).2).1 (by decide)
      · have hbytes := congrArg List.length heq
        have hle := length_chars_body hbody
        have hw := length_le_utf8 w
        rw [hutf8, utf8_append, List.length_cons, List.length_append, List.length_append] at hbytes
        omega
    · obtain ⟨bs', heq, hbody⟩ := chars_body_cons_eq_some hback h
      rw [utf8_cons] at heq
      rw [← List.append_cancel_left heq] at hbody
      exact fun hmem => (List.mem_cons.1 hmem).elim (fun hc => hback hc.symm) (ih hbody)

theorem literal_text_iff (s : String) : literal (Value.str s).text = some (utf8 s.toList) ↔ '\\' ∉ s.toList := by
  rw [Value.text, literal_eq_some]
  exact ⟨not_mem_of_chars_body, chars_body_of_not_mem⟩

/-- **The macro of a string is one literal that denotes the configured value exactly where the value has no backslash.** -/
theorem addDef_literal_iff (int : String → Option Int) {ini : Ini} {section_ key value : String}
    (hvalue : getParamOrFail ini section_ key = .ok value) :
    ∃ d, addDef int ini section_ key .str = .ok d ∧
      (literal d.value.text = some (utf8 value.toList) ↔ '\\' ∉ value.toList) := by
  refine ⟨⟨macroName section_ key, .str value⟩, ?_, literal_text_iff value⟩
  rw [addDef, hvalue]
  rfl

/-- The password of an access point. -/
def wifiIni (password : String) : Ini := fun section_ =>
  if section_ = "lib.wifi" then some fun key => if key = "password" then some (.value password) else none else none

theorem addDef_literal_iff_quotes : ∃ d, addDef (fun _ => none) (wifiIni "a\"b") "lib.wifi" "password" .str = .ok d ∧
    literal d.value.text = some (utf8 "a\"b".toList) := by
  have hvalue : getParamOrFail (wifiIni "a\"b") "lib.wifi" "password" = .ok "a\"b" := rfl
  obtain ⟨d, hdef, hiff⟩ := addDef_literal_iff (fun _ => none) hvalue
  exact ⟨d, hdef, hiff.2 (by decide)⟩

theorem not_addDef_literal : ¬ ∀ (ini : Ini) (section_ key value : String) (d : Def),
    getParamOrFail ini section_ key = .ok value → addDef (fun _ => none) ini section_ key .str = .ok d →
      literal d.value.text = some (utf8 value.toList) := by
  intro h
  have hliteral := h (wifiIni "p\\w") "lib.wifi" "password" "p\\w" ⟨_, .str "p\\w"⟩ rfl rfl
  exact (literal_text_iff "p\\w").1 hliteral (by decide)

end Vedruino.Config
