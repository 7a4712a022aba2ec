import Vedruino.Lwjson.Tree

/-!
# Strings and numbers

Which characters the parser takes for a string, for a number and for another scalar, and what its tokens then say.
-/

namespace Vedruino.Lwjson

variable {R : Type} {s t : List UInt8}

/-! ### Strings -/

/-- The characters that stand between the quotes of a string. -/
inductive Raw : List UInt8 → Prop
  | nil : Raw []
  | escape {e : UInt8} {s : List UInt8} (he : isSimpleEscape e = true) (h : Raw s) : Raw (ch '\\' :: e :: s)
  | unicode {a b c d : UInt8} {s : List UInt8} (hhex : (isHex a && isHex b && isHex c && isHex d) = true) (h : Raw s) :
    Raw (ch '\\' :: ch 'u' :: a :: b :: c :: d :: s)
  | char {c : UInt8} {s : List UInt8} (hback : c ≠ ch '\\') (hquote : c ≠ ch '"') (h : Raw s) : Raw (c :: s)

theorem string_raw {raw : List UInt8} (h : Raw raw) (t : List UInt8) (n : Nat) :
    string 0 (raw ++ ch '"' :: t) n = some (t, n + raw.length) := by
  induction h generalizing n with
  | nil =>
    rw [List.nil_append, string.eq_def]
    dsimp only
    rw [if_neg (by omega), if_neg (by decide), if_pos rfl]
    rfl
  | @escape e s he _ ih =>
    rw [List.cons_append, List.cons_append, string.eq_def]
    dsimp only
    rw [if_neg (by omega), if_pos rfl, if_pos he, ih, List.length_cons, List.length_cons]
    congr 2
    omega
  | @unicode a b c d s hhex _ ih =>
    simp only [List.cons_append]
    rw [string.eq_def]
    dsimp only
    rw [if_neg (by omega), if_pos rfl, if_neg (by decide), if_pos rfl, if_pos hhex, ih]
    simp only [List.length_cons]
    congr 2
    omega
  | @char c s hback hquote _ ih =>
    rw [List.cons_append, string.eq_def]
    dsimp only
    rw [if_neg (by omega), if_neg hback, if_neg hquote, ih, List.length_cons]
    congr 2
    omega

theorem raw_of_string {n m : Nat} (h : string 0 s n = some (t, m)) :
    ∃ raw, Raw raw ∧ s = raw ++ ch '"' :: t ∧ m = n + raw.length := by
  fun_induction string 0 s n with
  | case4 n e s he _ ih =>
    obtain ⟨raw, hraw, rfl, rfl⟩ := ih h
    refine ⟨_, .escape he hraw, rfl, ?_⟩
    rw [List.length_cons, List.length_cons]
    omega
  | case5 n a b c d s hhex _ _ ih =>
    obtain ⟨raw, hraw, rfl, rfl⟩ := ih h
    refine ⟨_, .unicode hhex hraw, rfl, ?_⟩
    simp only [List.length_cons]
    omega
  | case9 s n =>
    cases h
    exact ⟨[], .nil, rfl, rfl⟩
  | case10 c s n _ hback hquote ih =>
    obtain ⟨raw, hraw, rfl, rfl⟩ := ih h
    refine ⟨_, .char hback hquote hraw, rfl, ?_⟩
    rw [List.length_cons]
    omega
  | _ => cases h

/-! ### Numbers -/

def IsDigits (ds : List UInt8) : Prop := ds ≠ [] ∧ ∀ d ∈ ds, isDigit d = true

/-- The letter, the two signs and the digits of an exponent. -/
structure ExpText where
  mark : UInt8
  minus : Bool
  plus : Bool
  digits : List UInt8

/-- The parts of a number. -/
structure NumText where
  minus : Bool
  int : List UInt8
  frac : Option (List UInt8)
  exp : Option ExpText

structure NumText.Wf (n : NumText) : Prop where
  int : IsDigits n.int
  frac : ∀ ds ∈ n.frac, IsDigits ds
  exp : ∀ e ∈ n.exp, isExpMark e.mark = true ∧ IsDigits e.digits

def sign (c : Char) (b : Bool) : List UInt8 := if b then [ch c] else []

def fracText : Option (List UInt8) → List UInt8
  | none => []
  | some ds => ch '.' :: ds

def expText : Option ExpText → List UInt8
  | none => []
  | some e => e.mark :: (sign '-' e.minus ++ (sign '+' e.plus ++ e.digits))

def NumText.text (n : NumText) : List UInt8 := sign '-' n.minus ++ (n.int ++ (fracText n.frac ++ expText n.exp))

def digitsValue (ds : List UInt8) : BitVec 64 := ds.foldl pushDigit 0

section

variable [LwReal R]

open LwReal (ofInt)

def fracValue (x : R) : Option (List UInt8) → R
  | none => x
  | some ds =>
    LwReal.add x (LwReal.div (ofInt (digitsValue ds).toInt) (ds.foldl (fun exp _ => LwReal.mul exp (ofInt 10)) (ofInt 1)))

def expValue (x : R) : Option ExpText → R
  | none => x
  | some e =>
    (fun r => if e.minus then LwReal.div r (ofInt 10) else LwReal.mul r (ofInt 10))^[(digitsValue e.digits).toInt.toNat] x

/-- A number with neither a point nor an exponent is an integer. -/
def NumText.value (n : NumText) : LwjsonType × U R :=
  if n.frac.isNone ∧ n.exp.isNone then
    (.numInt, .numInt (if n.minus then -digitsValue n.int else digitsValue n.int))
  else
    let x : R := expValue (fracValue (ofInt (digitsValue n.int).toInt) n.frac) n.exp
    (.numReal, .numReal (if n.minus then LwReal.neg x else x))

end

/-- The text does not go on with a character of a number. -/
def Stops (t : List UInt8) : Prop := ∀ c ∈ t.head?, isDigit c = false ∧ isPoint c = false ∧ isExpMark c = false

theorem span_digits {ds : List UInt8} (hds : ∀ d ∈ ds, isDigit d = true) (ht : ∀ c ∈ t.head?, isDigit c = false) :
    (ds ++ t).takeWhile isDigit = ds ∧ (ds ++ t).dropWhile isDigit = t := by
  have hnil : t.takeWhile isDigit = [] ∧ t.dropWhile isDigit = t := by
    cases t with
    | nil => exact ⟨rfl, rfl⟩
    | cons c t =>
      have hc : ¬ isDigit c = true := Bool.not_eq_true _ ▸ ht c rfl
      exact ⟨List.takeWhile_cons_of_neg hc, List.dropWhile_cons_of_neg hc⟩
  rw [List.takeWhile_append_of_pos hds, List.dropWhile_append_of_pos hds, hnil.1, hnil.2, List.append_nil]
  exact ⟨rfl, rfl⟩

private theorem zero_not_mem_digits {ds : List UInt8} (h : IsDigits ds) : 0 ∉ ds := fun hzero => absurd (h.2 0 hzero) (by decide)

theorem NumText.Wf.zero_not_mem {n : NumText} (h : n.Wf) : 0 ∉ n.text := by
  have hsign {c : Char} (hc : ch c ≠ 0) (b : Bool) : 0 ∉ sign c b := by
    rw [sign]
    split
    · exact fun hzero => hc (List.mem_singleton.1 hzero).symm
    · exact List.not_mem_nil
  simp only [NumText.text, List.mem_append, not_or]
  refine ⟨hsign (by decide) _, zero_not_mem_digits h.int, ?_, ?_⟩
  · cases hfrac : n.frac with
    | none => exact List.not_mem_nil
    | some ds =>
      rw [fracText, List.mem_cons, not_or]
      exact ⟨by decide, zero_not_mem_digits (h.frac ds hfrac)⟩
  · cases hexp : n.exp with
    | none => exact List.not_mem_nil
    | some e =>
      obtain ⟨hmark, hdigits⟩ := h.exp e hexp
      simp only [expText, List.mem_cons, List.mem_append, not_or]
      refine ⟨?_, hsign (by decide) _, hsign (by decide) _, zero_not_mem_digits hdigits⟩
      intro hzero
      rw [← hzero] at hmark
      exact absurd hmark (by decide)

theorem digits_of_takeWhile (h : s.takeWhile isDigit ≠ []) :
    IsDigits (s.takeWhile isDigit) ∧ s = s.takeWhile isDigit ++ s.dropWhile isDigit :=
  ⟨⟨h, List.all_eq_true.1 List.all_takeWhile⟩, List.takeWhile_append_dropWhile.symm⟩

/-- A sign that is there, or not, before a character that is none. -/
theorem afterChar_sign (c : Char) (b : Bool) (hs : s.head? ≠ some (ch c)) :
    afterChar (ch c) (sign c b ++ s) = s ∧ ((sign c b ++ s).head? = some (ch c) ↔ b = true) := by
  cases b with
  | true => exact ⟨if_pos rfl, iff_of_true rfl rfl⟩
  | false =>
    refine ⟨?_, iff_of_false hs Bool.false_ne_true⟩
    cases s with
    | nil => rfl
    | cons d s => exact if_neg fun h => hs (congrArg some h)

theorem sign_of_afterChar (c : Char) (s : List UInt8) : s = sign c (s.head? = some (ch c)) ++ afterChar (ch c) s := by
  cases s with
  | nil => rfl
  | cons d s =>
    by_cases hd : d = ch c
    · simp [hd, sign, afterChar]
    · simp [hd, sign, afterChar]

theorem head_digits {ds : List UInt8} (h : IsDigits ds) (c : UInt8) (hc : isDigit c = false) (t : List UInt8) :
    (ds ++ t).head? ≠ some c := by
  obtain ⟨d, ds, rfl⟩ := List.exists_cons_of_ne_nil h.1
  intro heq
  cases heq
  rw [h.2 c List.mem_cons_self] at hc
  cases hc

variable [LwReal R]

private theorem fraction_digits {ds : List UInt8} (hds : IsDigits ds) (ht : ∀ c ∈ t.head?, isDigit c = false) (x : R) :
    fraction (ds ++ t) x = some (t, fracValue x (some ds)) := by
  obtain ⟨htake, hdrop⟩ := span_digits hds.2 ht
  rw [fraction, htake, hdrop, if_neg hds.1]
  rfl

private theorem digits_of_fraction {x y : R} (h : fraction s x = some (t, y)) :
    ∃ ds, IsDigits ds ∧ s = ds ++ t ∧ y = fracValue x (some ds) := by
  rw [fraction] at h
  split at h
  · cases h
  next hne =>
    cases h
    obtain ⟨hds, hs⟩ := digits_of_takeWhile hne
    exact ⟨_, hds, hs, rfl⟩

private theorem exponent_digits {e : ExpText} (hds : IsDigits e.digits) (ht : ∀ c ∈ t.head?, isDigit c = false) (x : R) :
    exponent (sign '-' e.minus ++ (sign '+' e.plus ++ e.digits) ++ t) x = some (t, expValue x (some e)) := by
  obtain ⟨htake, hdrop⟩ := span_digits hds.2 ht
  have hplus := afterChar_sign '+' e.plus (head_digits hds (ch '+') (by decide) t)
  have hminus := afterChar_sign '-' e.minus (s := sign '+' e.plus ++ (e.digits ++ t)) (by
    cases e.plus with
    | true => exact fun h => absurd (Option.some.inj h) (by decide)
    | false => exact head_digits hds (ch '-') (by decide) t)
  rw [List.append_assoc, List.append_assoc, exponent, hminus.1, hplus.1, htake, hdrop, if_neg hds.1]
  simp only [hminus.2]
  rfl

private theorem digits_of_exponent {x y : R} (h : exponent s x = some (t, y)) :
    ∃ minus plus ds, IsDigits ds ∧ s = sign '-' minus ++ (sign '+' plus ++ ds) ++ t ∧
      ∀ mark, y = expValue x (some ⟨mark, minus, plus, ds⟩) := by
  rw [exponent] at h
  dsimp only at h
  split at h
  · cases h
  next hne =>
    cases h
    obtain ⟨hds, hs⟩ := digits_of_takeWhile hne
    refine ⟨decide (s.head? = some (ch '-')), decide ((afterChar (ch '-') s).head? = some (ch '+')), _, hds, ?_, ?_⟩
    · rw [List.append_assoc, List.append_assoc, ← hs, ← sign_of_afterChar, ← sign_of_afterChar]
    · intro mark
      simp [expValue, digitsValue]

private theorem optionalPart_frac {f : Option (List UInt8)} (hf : ∀ ds ∈ f, IsDigits ds)
    (ht : ∀ c ∈ t.head?, isDigit c = false ∧ isPoint c = false) (x : R) (type : LwjsonType) :
    optionalPart isPoint fraction (fracText f ++ t, x, type) =
      some (t, fracValue x f, if f.isNone then type else .numReal) := by
  cases f with
  | none =>
    cases t with
    | nil => rfl
    | cons c t =>
      rw [fracText, List.nil_append, optionalPart, (ht c rfl).2]
      rfl
  | some ds =>
    have hpoint : isPoint (ch '.') = true := rfl
    rw [fracText, List.cons_append, optionalPart, if_pos hpoint, fraction_digits (hf ds rfl) fun c hc => (ht c hc).1]
    rfl

private theorem frac_of_optionalPart {x y : R} {type type' : LwjsonType}
    (h : optionalPart isPoint fraction (s, x, type) = some (t, y, type')) :
    ∃ f : Option (List UInt8), (∀ ds ∈ f, IsDigits ds) ∧ s = fracText f ++ t ∧ y = fracValue x f ∧
      type' = if f.isNone then type else .numReal := by
  have habsent (heq : some (s, x, type) = some (t, y, type')) : ∃ f : Option (List UInt8), (∀ ds ∈ f, IsDigits ds) ∧
      s = fracText f ++ t ∧ y = fracValue x f ∧ type' = if f.isNone then type else .numReal := by
    cases heq
    exact ⟨none, by simp, rfl, rfl, rfl⟩
  cases s with
  | nil => exact habsent h
  | cons c s =>
    rw [optionalPart] at h
    by_cases hpoint : isPoint c = true
    · rw [if_pos hpoint, Option.map_eq_some_iff] at h
      obtain ⟨⟨v, z⟩, hfraction, heq⟩ := h
      cases heq
      obtain ⟨ds, hds, rfl, rfl⟩ := digits_of_fraction hfraction
      obtain rfl := of_decide_eq_true hpoint
      exact ⟨some ds, by simpa using hds, rfl, rfl, rfl⟩
    · rw [if_neg hpoint] at h
      exact habsent h

private theorem optionalPart_exp {e : Option ExpText} (he : ∀ e' ∈ e, isExpMark e'.mark = true ∧ IsDigits e'.digits)
    (ht : ∀ c ∈ t.head?, isDigit c = false ∧ isExpMark c = false) (x : R) (type : LwjsonType) :
    optionalPart isExpMark exponent (expText e ++ t, x, type) =
      some (t, expValue x e, if e.isNone then type else .numReal) := by
  cases e with
  | none =>
    cases t with
    | nil => rfl
    | cons c t =>
      rw [expText, List.nil_append, optionalPart, (ht c rfl).2]
      rfl
  | some e =>
    obtain ⟨hmark, hdigits⟩ := he e rfl
    rw [expText, List.cons_append, optionalPart, if_pos hmark, exponent_digits hdigits fun c hc => (ht c hc).1]
    rfl

private theorem exp_of_optionalPart {x y : R} {type type' : LwjsonType}
    (h : optionalPart isExpMark exponent (s, x, type) = some (t, y, type')) :
    ∃ e : Option ExpText, (∀ e' ∈ e, isExpMark e'.mark = true ∧ IsDigits e'.digits) ∧ s = expText e ++ t ∧ y = expValue x e ∧
      type' = if e.isNone then type else .numReal := by
  have habsent (heq : some (s, x, type) = some (t, y, type')) : ∃ e : Option ExpText,
      (∀ e' ∈ e, isExpMark e'.mark = true ∧ IsDigits e'.digits) ∧ s = expText e ++ t ∧ y = expValue x e ∧
      type' = if e.isNone then type else .numReal := by
    cases heq
    exact ⟨none, by simp, rfl, rfl, rfl⟩
  cases s with
  | nil => exact habsent h
  | cons c s =>
    rw [optionalPart] at h
    by_cases hmark : isExpMark c = true
    · rw [if_pos hmark, Option.map_eq_some_iff] at h
      obtain ⟨⟨v, z⟩, hexponent, heq⟩ := h
      cases heq
      obtain ⟨minus, plus, ds, hds, rfl, hvalue⟩ := digits_of_exponent hexponent
      exact ⟨some ⟨c, minus, plus, ds⟩, by simpa using ⟨hmark, hds⟩, rfl, hvalue c, rfl⟩
    · rw [if_neg hmark] at h
      exact habsent h

private theorem not_isDigit_of_isPoint {c : UInt8} (h : isPoint c = true) : isDigit c = false := by
  obtain rfl := of_decide_eq_true h
  decide

theorem not_isDigit_of_isExpMark {c : UInt8} (h : isExpMark c = true) : isDigit c = false ∧ isPoint c = false := by
  rcases of_decide_eq_true h with rfl | rfl <;> decide

/-- What follows the digits before the point. -/
theorem head_after_int {n : NumText} (hn : n.Wf) (ht : Stops t) :
    ∀ c ∈ (fracText n.frac ++ (expText n.exp ++ t)).head?, isDigit c = false := by
  intro c hc
  cases hfrac : n.frac with
  | some ds =>
    rw [hfrac] at hc
    cases hc
    exact not_isDigit_of_isPoint rfl
  | none =>
    rw [hfrac] at hc
    cases hexp : n.exp with
    | some e =>
      rw [hexp] at hc
      cases hc
      exact (not_isDigit_of_isExpMark (hn.exp e hexp).1).1
    | none =>
      rw [hexp] at hc
      exact (ht c hc).1

/-- What follows the digits after the point. -/
theorem head_after_frac {n : NumText} (hn : n.Wf) (ht : Stops t) :
    ∀ c ∈ (expText n.exp ++ t).head?, isDigit c = false ∧ isPoint c = false := by
  intro c hc
  cases hexp : n.exp with
  | some e =>
    rw [hexp] at hc
    cases hc
    exact not_isDigit_of_isExpMark (hn.exp e hexp).1
  | none =>
    rw [hexp] at hc
    exact ⟨(ht c hc).1, (ht c hc).2.1⟩

theorem number_text {n : NumText} (hn : n.Wf) (ht : Stops t) : number (n.text ++ t) = some (t, (n.value : LwjsonType × U R)) := by
  have hhead := head_digits hn.int (ch '-') (by decide) (fracText n.frac ++ (expText n.exp ++ t))
  obtain ⟨hafter, hminus⟩ := afterChar_sign '-' n.minus hhead
  obtain ⟨htake, hdrop⟩ := span_digits hn.int.2 (head_after_int hn ht)
  rw [NumText.text, List.append_assoc, List.append_assoc, List.append_assoc, number, hafter, htake, hdrop, if_neg hn.int.1]
  dsimp only
  rw [optionalPart_frac hn.frac (head_after_frac hn ht), Option.bind_some,
    optionalPart_exp hn.exp fun c hc => ⟨(ht c hc).1, (ht c hc).2.2⟩, Option.map_some]
  simp only [hminus]
  rw [NumText.value]
  cases n.frac with
  | none => cases n.exp <;> rfl
  | some => cases n.exp <;> rfl

theorem text_of_number {v : LwjsonType × U R} (h : number s = some (t, v)) :
    ∃ n : NumText, n.Wf ∧ s = n.text ++ t ∧ v = n.value := by
  rw [number] at h
  dsimp only at h
  split at h
  · cases h
  next hne =>
    rw [Option.map_eq_some_iff] at h
    obtain ⟨⟨w, y, type⟩, hparts, heq⟩ := h
    cases heq
    rw [Option.bind_eq_some_iff] at hparts
    obtain ⟨⟨u, x, type'⟩, hpoint, hmark⟩ := hparts
    obtain ⟨f, hf, hu, rfl, rfl⟩ := frac_of_optionalPart hpoint
    obtain ⟨e, he, hw, rfl, rfl⟩ := exp_of_optionalPart hmark
    obtain ⟨hint, hs⟩ := digits_of_takeWhile hne
    refine ⟨⟨decide (s.head? = some (ch '-')), (afterChar (ch '-') s).takeWhile isDigit, f, e⟩, ⟨hint, hf, he⟩, ?_, ?_⟩
    · rw [NumText.text, List.append_assoc, List.append_assoc, List.append_assoc, ← hw, ← hu, ← hs, ← sign_of_afterChar]
    · rw [NumText.value]
      cases f with
      | none => cases e <;> simp [digitsValue]
      | some => cases e <;> simp [digitsValue]

end Vedruino.Lwjson
