import Vedruino.Lwjson.Lexemes

/-!
# The language of the parser

Which texts the parser takes, and for which trees. Commas may be left out after a container and repeated or left at the end after anything but an opening bracket, a zero may begin a number, and the text may end inside of the outermost container after a comma or after a container.
-/

namespace Vedruino.Lwjson

variable {R : Type}

/-! ### Labels by their characters -/

def U.trim : U R → U R
  | .str value n => .str (value.take n) n
  | u => u

/-- The label without what follows its name and its string in the text. -/
def Label.trim (l : Label R) : Label R := ⟨l.name.map fun n => (n.1.take n.2, n.2), l.type, l.u.trim⟩

def trimTree (tree : Tree R) : Tree R := (tree.1.trim, tree.2.map Label.trim)

/-! ### Blanks -/

def Blank (b : List UInt8) : Prop := ∀ c ∈ b, isBlank c = true

/-- The text goes on with another character than a blank. -/
def Begins (s : List UInt8) : Prop := ∃ c t, s = c :: t ∧ isBlank c = false

variable {b s t : List UInt8}

theorem blanks_append (hb : Blank b) (s : List UInt8) : blanks 0 (b ++ s) = blanks 0 s := by
  induction b with
  | nil => rfl
  | cons c b ih =>
    obtain ⟨hc, hb⟩ := List.forall_mem_cons.1 hb
    rw [List.cons_append, blanks, if_pos ⟨Nat.succ_pos _, hc⟩, ih hb]

theorem skip_append (hb : Blank b) (s : List UInt8) : skip 0 (b ++ s) = skip 0 s := by
  rw [skip, skip, blanks_append hb]

theorem skip_begins (h : Begins s) : skip 0 s = some s := by
  obtain ⟨c, t, rfl, hc⟩ := h
  have hblanks : blanks 0 (c :: t) = c :: t := by
    rw [blanks, if_neg]
    exact fun h => Bool.false_ne_true (hc.symm.trans h.2)
  rw [skip, hblanks]
  rfl

theorem blanks_eq_append (s : List UInt8) : ∃ b, Blank b ∧ s = b ++ blanks 0 s ∧ (blanks 0 s = [] ∨ Begins (blanks 0 s)) := by
  induction s with
  | nil => exact ⟨[], List.forall_mem_nil _, rfl, .inl rfl⟩
  | cons c s ih =>
    cases hc : isBlank c with
    | true =>
      obtain ⟨b, hb, hs, hend⟩ := ih
      rw [blanks, if_pos ⟨Nat.succ_pos _, hc⟩]
      exact ⟨c :: b, List.forall_mem_cons.2 ⟨hc, hb⟩, congrArg (c :: ·) hs, hend⟩
    | false =>
      rw [blanks, if_neg fun h => Bool.false_ne_true (hc.symm.trans h.2)]
      exact ⟨[], List.forall_mem_nil _, rfl, .inr ⟨c, s, rfl, hc⟩⟩

theorem append_of_skip (h : skip 0 s = some t) : ∃ b, Blank b ∧ s = b ++ t ∧ Begins t := by
  obtain ⟨b, hb, hs, hend⟩ := blanks_eq_append s
  rw [skip] at h
  split at h
  next hlive =>
    cases h
    refine ⟨b, hb, hs, hend.resolve_left ?_⟩
    intro hnil
    rw [hnil] at hlive
    exact Nat.lt_irrefl _ hlive
  · cases h

theorem blank_of_blanks (h : (blanks 0 s).length ≤ 0) : Blank s := by
  obtain ⟨b, hb, hs, -⟩ := blanks_eq_append s
  rw [List.eq_nil_of_length_eq_zero (Nat.le_zero.1 h), List.append_nil] at hs
  rw [hs]
  exact hb

/-! ### Scalars and names -/

def trueText : List UInt8 := [ch 't', ch 'r', ch 'u', ch 'e']

def falseText : List UInt8 := [ch 'f', ch 'a', ch 'l', ch 's', ch 'e']

def nullText : List UInt8 := [ch 'n', ch 'u', ch 'l', ch 'l']

inductive Scalar [LwReal R] : List UInt8 → LwjsonType → U R → Prop
  | string {raw : List UInt8} (h : Raw raw) : Scalar (ch '"' :: (raw ++ [ch '"'])) .string (.str raw raw.length)
  | true_ : Scalar trueText .true_ .zero
  | false_ : Scalar falseText .false_ .zero
  | null : Scalar nullText .null .zero
  | number {n : NumText} (h : n.Wf) : Scalar n.text (n.value : LwjsonType × U R).1 (n.value : LwjsonType × U R).2

/-- What stands before a child of a node of that type. -/
inductive ChildName : LwjsonType → List UInt8 → Option (List UInt8 × Nat) → Prop
  | array : ChildName .array [] none
  | object {raw b b' : List UInt8} (h : Raw raw) (hb : Blank b) (hb' : Blank b') :
    ChildName .object (ch '"' :: (raw ++ ch '"' :: (b ++ ch ':' :: b'))) (some (raw, raw.length))

theorem quoted_raw {raw : List UInt8} (h : Raw raw) (t : List UInt8) :
    quoted 0 (ch '"' :: (raw ++ ch '"' :: t)) = some (t, raw ++ ch '"' :: t, raw.length) := by
  rw [quoted, skip_begins ⟨_, _, rfl, by decide⟩]
  dsimp only
  rw [if_pos rfl, string_raw h, Nat.zero_add]
  rfl

theorem raw_of_quoted {c : UInt8} {value : List UInt8} {n : Nat} (hc : isBlank c = false)
    (h : quoted 0 (c :: s) = some (t, value, n)) :
    ∃ raw, Raw raw ∧ c :: s = ch '"' :: (raw ++ ch '"' :: t) ∧ value.take n = raw ∧ n = raw.length := by
  rw [quoted, skip_begins ⟨c, s, rfl, hc⟩] at h
  dsimp only at h
  split at h
  next hquote =>
    rw [Option.map_eq_some_iff] at h
    obtain ⟨⟨t', n'⟩, hstring, heq⟩ := h
    cases heq
    obtain ⟨raw, hraw, rfl, hn⟩ := raw_of_string hstring
    rw [Nat.zero_add] at hn
    subst hn
    exact ⟨raw, hraw, congrArg (· :: _) hquote, List.take_left, rfl⟩
  · cases h

theorem isDigit_of_number {n : NumText} (hn : n.Wf) : ∃ c s, n.text = c :: s ∧ (c = ch '-' ∨ isDigit c = true) := by
  obtain ⟨d, ds, hint⟩ := List.exists_cons_of_ne_nil hn.int.1
  rw [NumText.text, hint]
  cases n.minus with
  | true => exact ⟨_, _, rfl, .inl rfl⟩
  | false => exact ⟨_, _, rfl, .inr (hn.int.2 d (hint ▸ List.mem_cons_self))⟩

variable [LwReal R]

/-- The character that a scalar begins with. -/
theorem Scalar.begins {cs : List UInt8} {type : LwjsonType} {u : U R} (h : Scalar cs type u) :
    ∃ c s, cs = c :: s ∧ ([ch '"', ch '-', ch 't', ch 'n', ch 'f'].contains c = true ∨ isDigit c = true) := by
  cases h with
  | string => exact ⟨_, _, rfl, .inl (by decide)⟩
  | true_ => exact ⟨_, _, rfl, .inl (by decide)⟩
  | false_ => exact ⟨_, _, rfl, .inl (by decide)⟩
  | null => exact ⟨_, _, rfl, .inl (by decide)⟩
  | number hn =>
    obtain ⟨c, s, heq, rfl | hc⟩ := isDigit_of_number hn
    · exact ⟨_, _, heq, .inl (by decide)⟩
    · exact ⟨c, s, heq, .inr hc⟩

theorem Scalar.not_container {cs : List UInt8} {type : LwjsonType} {u : U R} (h : Scalar cs type u) : ¬ IsContainer type := by
  cases h with
  | string => decide
  | true_ => decide
  | false_ => decide
  | null => decide
  | number =>
    rw [NumText.value]
    split
    · exact fun h => (by decide : ¬ IsContainer .numInt) h
    · exact fun h => (by decide : ¬ IsContainer .numReal) h

omit [LwReal R] in
theorem name_append (names t : List UInt8) (type : LwjsonType) : name (names ++ t) names type = some (t, type, (.zero : U R)) := by
  rw [name, if_pos (List.isPrefixOf_iff_prefix.2 (List.prefix_append _ _)), List.drop_left]

omit [LwReal R] in
theorem append_of_name {names : List UInt8} {type type' : LwjsonType} {u : U R} (h : name s names type = some (t, type', u)) :
    s = names ++ t ∧ type' = type ∧ u = .zero := by
  rw [name] at h
  split at h
  next hprefix =>
    obtain ⟨v, rfl⟩ := List.isPrefixOf_iff_prefix.1 hprefix
    rw [List.drop_left] at h
    cases h
    exact ⟨rfl, rfl, rfl⟩
  · cases h

private theorem scalar_of_number {c : UInt8} (h : c = ch '-' ∨ isDigit c = true) (s : List UInt8) :
    scalar (R := R) 0 (c :: s) = number (c :: s) := by
  have hne (d : UInt8) (hd : ¬ (d = ch '-' ∨ isDigit d = true)) : c ≠ d := fun heq => hd (heq ▸ h)
  rw [scalar, if_neg (hne _ (by decide)), if_neg (hne _ (by decide)), if_neg (hne _ (by decide)), if_neg (hne _ (by decide)),
    if_pos h]

theorem trim_value {n : NumText} {type : LwjsonType} {u : U R} (h : (type, u) = n.value) :
    u.trim = (n.value : LwjsonType × U R).2 := by
  have hu : u = (n.value : LwjsonType × U R).2 := congrArg Prod.snd h
  rw [hu, NumText.value]
  split <;> rfl

theorem scalar_append {cs : List UInt8} {type : LwjsonType} {u : U R} (h : Scalar cs type u) (ht : Stops t) :
    ∃ u', scalar 0 (cs ++ t) = some (t, type, u') ∧ u'.trim = u := by
  cases h with
  | @string raw hraw =>
    refine ⟨.str (raw ++ ch '"' :: t) raw.length, ?_, ?_⟩
    · rw [List.cons_append, List.append_assoc, List.singleton_append, scalar, if_pos rfl, quoted_raw hraw]
      rfl
    · rw [U.trim, List.take_left]
  | true_ => exact ⟨.zero, name_append trueText t .true_, rfl⟩
  | false_ => exact ⟨.zero, name_append falseText t .false_, rfl⟩
  | null => exact ⟨.zero, name_append nullText t .null, rfl⟩
  | @number n hn =>
    refine ⟨(n.value : LwjsonType × U R).2, ?_, ?_⟩
    · obtain ⟨c, s, heq, hc⟩ := isDigit_of_number hn
      have hnumber := number_text (R := R) hn ht
      rw [heq, List.cons_append] at hnumber ⊢
      rw [scalar_of_number hc, hnumber]
    · exact trim_value rfl

theorem scalar_of_scalar {type : LwjsonType} {u : U R} (hs : Begins s) (h : scalar 0 s = some (t, type, u)) :
    ∃ cs, Scalar cs type u.trim ∧ s = cs ++ t := by
  obtain ⟨c, s, rfl, hc⟩ := hs
  rw [scalar] at h
  split at h
  · rw [Option.map_eq_some_iff] at h
    obtain ⟨⟨t', value, n⟩, hquoted, heq⟩ := h
    cases heq
    obtain ⟨raw, hraw, heq, hvalue, rfl⟩ := raw_of_quoted hc hquoted
    rw [U.trim, hvalue]
    refine ⟨_, .string hraw, ?_⟩
    rw [heq, List.cons_append, List.append_assoc, List.singleton_append]
  split at h
  · obtain ⟨heq, rfl, rfl⟩ := append_of_name h
    exact ⟨_, .true_, heq⟩
  split at h
  · obtain ⟨heq, rfl, rfl⟩ := append_of_name h
    exact ⟨_, .false_, heq⟩
  split at h
  · obtain ⟨heq, rfl, rfl⟩ := append_of_name h
    exact ⟨_, .null, heq⟩
  split at h
  · obtain ⟨n, hn, heq, hv⟩ := text_of_number h
    refine ⟨_, ?_, heq⟩
    have htype : type = (n.value : LwjsonType × U R).1 := congrArg Prod.fst hv
    rw [htype, trim_value hv]
    exact .number hn
  · cases h

omit [LwReal R] in
theorem childName_append {type : LwjsonType} {p : List UInt8} {n : Option (List UInt8 × Nat)} (h : ChildName type p n)
    (ht : Begins t) : ∃ n', childName 0 type (p ++ t) = some (t, n') ∧ n'.map (fun n => (n.1.take n.2, n.2)) = n := by
  cases h with
  | array => exact ⟨none, rfl, rfl⟩
  | @object raw b b' hraw hb hb' =>
    have hcolon : Begins (ch ':' :: (b' ++ t)) := ⟨_, _, rfl, by decide⟩
    refine ⟨some (raw ++ ch '"' :: (b ++ ch ':' :: (b' ++ t)), raw.length), ?_, ?_⟩
    · simp only [List.cons_append, List.append_assoc]
      rw [childName, if_neg (by decide), List.head?_cons, if_pos rfl, propertyName, quoted_raw hraw, Option.bind_some]
      dsimp only
      rw [skip_append hb, skip_begins hcolon]
      dsimp only
      rw [if_pos rfl, skip_append hb', skip_begins ht]
      rfl
    · rw [Option.map_some, List.take_left]

omit [LwReal R] in
theorem append_of_childName {type : LwjsonType} {n : Option (List UInt8 × Nat)} (htype : IsContainer type) (hs : Begins s)
    (h : childName 0 type s = some (t, n)) :
    ∃ p, ChildName type p (n.map fun n => (n.1.take n.2, n.2)) ∧ s = p ++ t ∧ Begins t := by
  rw [childName] at h
  split at h
  next harray =>
    cases h
    subst harray
    exact ⟨[], .array, rfl, hs⟩
  split at h
  next harray hquote =>
    obtain rfl : type = .object := htype.resolve_right harray
    obtain ⟨c, s, rfl, hc⟩ := hs
    rw [Option.map_eq_some_iff] at h
    obtain ⟨⟨t', name, n'⟩, hname, heq⟩ := h
    cases heq
    rw [propertyName, Option.bind_eq_some_iff] at hname
    obtain ⟨⟨u, name', n''⟩, hquoted, hname⟩ := hname
    obtain ⟨raw, hraw, hs, hvalue, rfl⟩ := raw_of_quoted hc hquoted
    dsimp only at hname
    cases hskip : skip 0 u with
    | none =>
      rw [hskip] at hname
      cases hname
    | some v =>
      obtain ⟨b, hb, rfl, d, v, rfl, -⟩ := append_of_skip hskip
      rw [hskip] at hname
      dsimp only at hname
      split at hname
      next hcolon =>
        subst hcolon
        rw [Option.map_eq_some_iff] at hname
        obtain ⟨w, hw, heq⟩ := hname
        cases heq
        obtain ⟨b', hb', rfl, hbegins⟩ := append_of_skip hw
        rw [Option.map_some, hvalue]
        refine ⟨_, .object hraw hb hb', ?_, hbegins⟩
        simp only [hs, List.cons_append, List.append_assoc]
      · cases hname
  · cases h

/-! ### Texts -/

def opener (type : LwjsonType) : UInt8 := if type = .object then ch '\x7b' else ch '['

/-- The contents of a container do not begin with a comma. -/
def Opens (s : List UInt8) : Prop := (s.dropWhile isBlank).head? ≠ some (ch ',')

/-- What follows in a container of that type, up to its closing bracket or, where it is not `closed`, up to the end of the text. It is `free` where there is no scalar before it. -/
inductive Items : LwjsonType → Bool → Bool → List UInt8 → Forest (Label R) → Prop
  | close {type : LwjsonType} {free : Bool} {b : List UInt8} (hb : Blank b) : Items type true free (b ++ [closer type]) .nil
  | cut {type : LwjsonType} : Items type false true [] .nil
  | comma {type : LwjsonType} {closed free : Bool} {b s : List UInt8} {f : Forest (Label R)} (hb : Blank b)
    (h : Items type closed true s f) : Items type closed free (b ++ ch ',' :: s) f
  | scalar {type stype : LwjsonType} {closed : Bool} {b p cs s : List UInt8} {n : Option (List UInt8 × Nat)} {u : U R}
    {f : Forest (Label R)} (hb : Blank b) (hname : ChildName type p n) (hu : Scalar cs stype u) (h : Items type closed false s f) :
    Items type closed true (b ++ (p ++ (cs ++ s))) (.cons ⟨n, stype, u⟩ .nil f)
  | container {type ctype : LwjsonType} {closed : Bool} {b p inner s : List UInt8} {n : Option (List UInt8 × Nat)}
    {kids f : Forest (Label R)} (hb : Blank b) (hname : ChildName type p n) (htype : IsContainer ctype) (hopens : Opens inner)
    (hinner : Items ctype true true inner kids) (h : Items type closed true s f) :
    Items type closed true (b ++ (p ++ opener ctype :: (inner ++ s))) (.cons ⟨n, ctype, .zero⟩ kids f)

/-- A text, and its tree by the characters of its names and strings. -/
inductive Document : List UInt8 → Tree R → Prop
  | closed {type : LwjsonType} {b b' s : List UInt8} {f : Forest (Label R)} (hb : Blank b) (hb' : Blank b') (htype : IsContainer type)
    (hopens : Opens s) (h : Items type true true s f) : Document (b ++ opener type :: (s ++ b')) (⟨none, type, .zero⟩, f)
  | cut {type : LwjsonType} {b s : List UInt8} {f : Forest (Label R)} (hb : Blank b) (htype : IsContainer type) (hne : s ≠ [])
    (hopens : Opens s) (h : Items type false true s f) : Document (b ++ opener type :: s) (⟨none, type, .zero⟩, f)

end Vedruino.Lwjson
