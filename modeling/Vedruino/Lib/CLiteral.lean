import Mathlib.Data.List.Basic

/-!
# C string literals

The grammar of string literals, with the bytes that a literal denotes when the source and the execution character set are UTF-8. A sequence that the grammar does not have, and an escape out of range, denote nothing. There are no trigraphs.
-/

namespace Vedruino.CLiteral

def utf8 (cs : List Char) : List UInt8 := cs.flatMap String.utf8EncodeChar

theorem utf8_cons (c : Char) (cs : List Char) : utf8 (c :: cs) = String.utf8EncodeChar c ++ utf8 cs := rfl

theorem utf8_append (cs ds : List Char) : utf8 (cs ++ ds) = utf8 cs ++ utf8 ds := List.flatMap_append

theorem length_le_utf8 (cs : List Char) : cs.length ≤ (utf8 cs).length := by
  induction cs with
  | nil => exact Nat.le_refl 0
  | cons c cs ih =>
    have hpos : 0 < c.utf8Size := Char.utf8Size_pos c
    rw [utf8_cons, List.length_cons, List.length_append, String.length_utf8EncodeChar]
    omega

/-- Only characters of ASCII are one byte each. -/
theorem ascii_of_length_utf8 {cs : List Char} (h : (utf8 cs).length = cs.length) : ∀ c ∈ cs, c.toNat < 0x80 := by
  induction cs with
  | nil => exact fun _ h => absurd h List.not_mem_nil
  | cons c cs ih =>
    have hpos : 0 < c.utf8Size := Char.utf8Size_pos c
    have hle := length_le_utf8 cs
    rw [utf8_cons, List.length_cons, List.length_append, String.length_utf8EncodeChar] at h
    have hc := UInt32.le_iff_toNat_le.1 (Char.utf8Size_eq_one_iff.1 (by omega : c.utf8Size = 1))
    exact List.forall_mem_cons.2 ⟨Nat.lt_succ_of_le hc, ih (by omega)⟩

/-- A character is one byte, or its bytes are none of ASCII. -/
theorem utf8_char (c : Char) :
    String.utf8EncodeChar c = [UInt8.ofNat c.toNat] ∧ c.toNat < 0x80 ∨ 0x80 ≤ c.toNat ∧ ∀ b ∈ String.utf8EncodeChar c, 0x80 ≤ b.toNat := by
  have hval : c.val.toNat = c.toNat := rfl
  by_cases hc : c.toNat < 0x80
  · left
    refine ⟨?_, hc⟩
    rw [String.utf8EncodeChar]
    exact if_pos (Nat.le_of_lt_succ hc)
  · right
    refine ⟨Nat.le_of_not_lt hc, ?_⟩
    intro b hb
    rw [String.utf8EncodeChar, hval] at hb
    have hmod (n : Nat) : 0x80 ≤ n → n < 0x100 → 0x80 ≤ (UInt8.ofNat n).toNat := by
      intro hle hlt
      rw [UInt8.toNat_ofNat', Nat.mod_eq_of_lt hlt]
      exact hle
    split at hb
    · omega
    split at hb
    · simp only [List.mem_cons, List.not_mem_nil, or_false] at hb
      rcases hb with rfl | rfl
      · exact hmod _ (by omega) (by omega)
      · exact hmod _ (by omega) (by omega)
    split at hb
    · simp only [List.mem_cons, List.not_mem_nil, or_false] at hb
      rcases hb with rfl | rfl | rfl
      · exact hmod _ (by omega) (by omega)
      · exact hmod _ (by omega) (by omega)
      · exact hmod _ (by omega) (by omega)
    · simp only [List.mem_cons, List.not_mem_nil, or_false] at hb
      rcases hb with rfl | rfl | rfl | rfl
      · exact hmod _ (by omega) (by omega)
      · exact hmod _ (by omega) (by omega)
      · exact hmod _ (by omega) (by omega)
      · exact hmod _ (by omega) (by omega)

theorem utf8_of_ascii {cs : List Char} (h : ∀ c ∈ cs, c.toNat < 0x80) : utf8 cs = cs.map fun c => UInt8.ofNat c.toNat := by
  induction cs with
  | nil => rfl
  | cons c cs ih =>
    obtain ⟨hc, hcs⟩ := List.forall_mem_cons.1 h
    have hsize : c.utf8Size = 1 := Char.utf8Size_eq_one_iff.2 (UInt32.le_iff_toNat_le.2 (Nat.le_of_lt_succ hc))
    have hbyte : c.val.toUInt8 = UInt8.ofNat c.toNat := rfl
    rw [utf8_cons, String.utf8EncodeChar_eq_singleton hsize, ih hcs, hbyte]
    rfl

/-- A run of characters ends where the rest of the text begins with another one. -/
theorem span_append {p : Char → Bool} {cs rest : List Char} (hcs : ∀ c ∈ cs, p c = true)
    (hrest : ∀ c ∈ rest.head?, p c = false) : (cs ++ rest).takeWhile p = cs ∧ (cs ++ rest).dropWhile p = rest := by
  rw [List.takeWhile_append_of_pos hcs, List.dropWhile_append_of_pos hcs]
  cases rest with
  | nil => simp
  | cons c rest =>
    have hc : p c = false := hrest c rfl
    simp [hc]

/-- The character after the backslash of a simple escape, and its byte. -/
def simpleEscapes : List (Char × UInt8) :=
  [(Char.ofNat 0x27, 0x27), ('"', 0x22), ('?', 0x3f), ('\\', 0x5c), ('a', 7), ('b', 8), ('f', 12), ('n', 10), ('r', 13), ('t', 9),
    ('v', 11)]

def isOctal (c : Char) : Bool := '0' ≤ c && c ≤ '7'

def isHex (c : Char) : Bool := ('0' ≤ c && c ≤ '9') || ('a' ≤ c && c ≤ 'f') || ('A' ≤ c && c ≤ 'F')

def digit (c : Char) : Nat :=
  if c ≤ '9' then c.toNat - '0'.toNat else if c ≤ 'F' then c.toNat - 'A'.toNat + 10 else c.toNat - 'a'.toNat + 10

def number (base : Nat) (ds : List Char) : Nat := ds.foldl (fun n d => base * n + digit d) 0

/-- At most so many digits, and what follows them. -/
def takeDigits (p : Char → Bool) : Nat → List Char → List Char × List Char
  | n + 1, c :: cs =>
    if p c then
      let r := takeDigits p n cs
      (c :: r.1, r.2)
    else ([], c :: cs)
  | _, cs => ([], cs)

/-- The byte of an octal or hexadecimal escape. -/
def narrow (n : Nat) : Option (List UInt8) := if n < 256 then some [UInt8.ofNat n] else none

/-- The bytes of a universal character name. -/
def universal (n : Nat) : Option (List UInt8) :=
  if n.isValidChar ∧ (0xa0 ≤ n ∨ n = 0x24 ∨ n = 0x40 ∨ n = 0x60) then some (String.utf8EncodeChar (Char.ofNat n)) else none

def universalName (len : Nat) (cs : List Char) : Option (List UInt8 × List Char) :=
  let r := takeDigits isHex len cs
  if r.1.length = len then (universal (number 16 r.1)).map fun bs => (bs, r.2) else none

/-- What stands behind a backslash, and what follows it. -/
def escape : List Char → Option (List UInt8 × List Char)
  | [] => none
  | c :: cs =>
    match simpleEscapes.lookup c with
    | some b => some ([b], cs)
    | none =>
      if isOctal c then
        let r := takeDigits isOctal 2 cs
        (narrow (number 8 (c :: r.1))).map fun bs => (bs, r.2)
      else if c = 'x' then
        let r := takeDigits isHex cs.length cs
        if r.1 = [] then none else (narrow (number 16 r.1)).map fun bs => (bs, r.2)
      else if c = 'u' then universalName 4 cs
      else if c = 'U' then universalName 8 cs
      else none

theorem takeDigits_spec (p : Char → Bool) (n : Nat) (cs : List Char) :
    (takeDigits p n cs).1 ++ (takeDigits p n cs).2 = cs ∧ ∀ d ∈ (takeDigits p n cs).1, p d = true := by
  induction n generalizing cs with
  | zero =>
    rw [takeDigits]
    · simp
    · intro _ _ _ h
      cases h
  | succ n ih =>
    cases cs with
    | nil => simp [takeDigits]
    | cons c cs =>
      obtain ⟨happend, hdigits⟩ := ih cs
      rw [takeDigits]
      by_cases hp : p c = true
      · rw [if_pos hp]
        exact ⟨congrArg (c :: ·) happend, List.forall_mem_cons.2 ⟨hp, hdigits⟩⟩
      · rw [if_neg hp]
        simp

theorem isHex_of_isOctal {c : Char} (h : isOctal c = true) : isHex c = true := by
  simp only [isOctal, isHex, Bool.and_eq_true, Bool.or_eq_true, decide_eq_true_eq] at *
  exact .inl (.inl ⟨h.1, Nat.le_trans h.2 (by decide)⟩)

theorem length_narrow {n : Nat} {bs : List UInt8} (h : narrow n = some bs) : bs.length = 1 := by
  rw [narrow, Option.ite_none_right_eq_some] at h
  obtain ⟨-, h⟩ := h
  cases h
  rfl

theorem length_universal {n : Nat} {bs : List UInt8} (h : universal n = some bs) : bs.length ≤ 4 := by
  rw [universal, Option.ite_none_right_eq_some] at h
  obtain ⟨-, h⟩ := h
  cases h
  rw [String.length_utf8EncodeChar]
  exact Char.utf8Size_le_four _

/-- What an escape consumes: a character and the hexadecimal digits behind it. -/
def Consumes (cs rest : List Char) (bs : List UInt8) : Prop :=
  ∃ c ds, cs = c :: (ds ++ rest) ∧ (∀ d ∈ ds, isHex d = true) ∧ bs.length ≤ ds.length + 1 ∧
    ∀ b, simpleEscapes.lookup c = some b → ds = [] ∧ bs = [b]

theorem consumes_takeDigits {c : Char} {cs rest : List Char} {bs : List UInt8} {p : Char → Bool} {n : Nat}
    (hc : simpleEscapes.lookup c = none) (hp : ∀ d, p d = true → isHex d = true) (hrest : (takeDigits p n cs).2 = rest)
    (hlen : bs.length ≤ (takeDigits p n cs).1.length + 1) : Consumes (c :: cs) rest bs := by
  obtain ⟨happend, hdigits⟩ := takeDigits_spec p n cs
  refine ⟨c, (takeDigits p n cs).1, ?_, fun d hd => hp d (hdigits d hd), hlen, ?_⟩
  · rw [← hrest, happend]
  · intro b hb
    rw [hc] at hb
    cases hb

theorem consumes_universalName {c : Char} {cs rest : List Char} {bs : List UInt8} {len : Nat} (hlen : 4 ≤ len)
    (hc : simpleEscapes.lookup c = none) (h : universalName len cs = some (bs, rest)) : Consumes (c :: cs) rest bs := by
  rw [universalName, Option.ite_none_right_eq_some, Option.map_eq_some_iff] at h
  obtain ⟨hdigits, bs', huniversal, heq⟩ := h
  cases heq
  have hle := length_universal huniversal
  exact consumes_takeDigits hc (fun _ => id) rfl (by omega)

theorem escape_consumes {cs rest : List Char} {bs : List UInt8} (h : escape cs = some (bs, rest)) : Consumes cs rest bs := by
  cases cs with
  | nil => cases h
  | cons c cs =>
    rw [escape] at h
    split at h
    next b hb =>
      cases h
      refine ⟨c, [], rfl, fun _ h => absurd h List.not_mem_nil, Nat.le_refl 1, ?_⟩
      intro b' hb'
      rw [hb] at hb'
      cases hb'
      exact ⟨rfl, rfl⟩
    next hc =>
      by_cases hoctal : isOctal c = true
      · rw [if_pos hoctal, Option.map_eq_some_iff] at h
        obtain ⟨bs', hnarrow, heq⟩ := h
        cases heq
        exact consumes_takeDigits hc (fun _ => isHex_of_isOctal) rfl (by rw [length_narrow hnarrow]; omega)
      · rw [if_neg hoctal] at h
        by_cases hx : c = 'x'
        · rw [if_pos hx] at h
          dsimp only at h
          rw [Option.ite_none_left_eq_some, Option.map_eq_some_iff] at h
          obtain ⟨-, bs', hnarrow, heq⟩ := h
          cases heq
          exact consumes_takeDigits hc (fun _ => id) rfl (by rw [length_narrow hnarrow]; omega)
        · rw [if_neg hx] at h
          split at h
          · exact consumes_universalName (Nat.le_refl 4) hc h
          · split at h
            · exact consumes_universalName (by decide) hc h
            · cases h

theorem length_lt_of_escape {cs rest : List Char} {bs : List UInt8} (h : escape cs = some (bs, rest)) :
    rest.length < cs.length := by
  obtain ⟨c, ds, rfl, -⟩ := escape_consumes h
  rw [List.length_cons, List.length_append]
  omega

/-- The characters up to the quote that ends the literal, and what follows it. -/
def chars : List Char → Option (List UInt8 × List Char)
  | [] => none
  | c :: cs =>
    if c = '"' then some ([], cs)
    else if c = '\n' then none
    else if c = '\\' then
      match _h : escape cs with
      | none => none
      | some (bs, rest) => (chars rest).map fun r => (bs ++ r.1, r.2)
    else (chars cs).map fun r => (String.utf8EncodeChar c ++ r.1, r.2)
termination_by cs => cs.length
decreasing_by
  · have hlt := length_lt_of_escape _h
    rw [List.length_cons]
    omega
  · rw [List.length_cons]
    omega

/-- The bytes of a text that is exactly one string literal. -/
def literal : List Char → Option (List UInt8)
  | [] => none
  | c :: cs => if c = '"' then (chars cs).bind fun r => if r.2 = [] then some r.1 else none else none

theorem literal_eq_some {cs : List Char} {bs : List UInt8} :
    literal ('"' :: cs) = some bs ↔ chars cs = some (bs, []) := by
  rw [literal, if_pos rfl, Option.bind_eq_some_iff]
  constructor
  · rintro ⟨⟨bs', rest⟩, hchars, hrest⟩
    rw [Option.ite_none_right_eq_some] at hrest
    obtain ⟨rfl, hbs⟩ := hrest
    rw [hchars, ← Option.some.inj hbs]
  · intro hchars
    exact ⟨_, hchars, if_pos rfl⟩

theorem chars_quote (cs : List Char) : chars ('"' :: cs) = some ([], cs) := by rw [chars, if_pos rfl]

/-- An ordinary character denotes itself. -/
theorem chars_ordinary {c : Char} {cs : List Char} (hquote : c ≠ '"') (hline : c ≠ '\n') (hback : c ≠ '\\') :
    chars (c :: cs) = (chars cs).map fun r => (String.utf8EncodeChar c ++ r.1, r.2) := by
  rw [chars, if_neg hquote, if_neg hline, if_neg hback]

theorem chars_escape {cs rest : List Char} {bs : List UInt8} (h : escape cs = some (bs, rest)) :
    chars ('\\' :: cs) = (chars rest).map fun r => (bs ++ r.1, r.2) := by
  rw [chars, if_neg (by decide), if_neg (by decide), if_pos rfl]
  split
  next hnone => cases hnone.symm.trans h
  next bs' rest' hsome =>
    cases hsome.symm.trans h
    rfl

/-- A backslash that is read begins an escape. -/
theorem exists_escape {cs rest : List Char} {bs : List UInt8} (h : chars ('\\' :: cs) = some (bs, rest)) :
    ∃ bs₁ rest₁ bs₂, escape cs = some (bs₁, rest₁) ∧ chars rest₁ = some (bs₂, rest) ∧ bs = bs₁ ++ bs₂ := by
  cases hescape : escape cs with
  | none =>
    rw [chars, if_neg (by decide), if_neg (by decide), if_pos rfl] at h
    split at h
    next => cases h
    next bs' rest' hsome => cases hsome.symm.trans hescape
  | some r =>
    rw [chars_escape hescape, Option.map_eq_some_iff] at h
    obtain ⟨⟨bs₂, rest'⟩, hchars, heq⟩ := h
    cases heq
    exact ⟨r.1, r.2, bs₂, rfl, hchars, rfl⟩

end Vedruino.CLiteral
