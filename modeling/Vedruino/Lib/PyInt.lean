import Mathlib.Data.List.Infix
import Mathlib.Tactic.IntervalCases
import Vedruino.Lib.CLiteral

/-!
# Hexadecimal numbers in Python

`int(s, 16)` takes more than digits: spaces around, a sign, the mark `0x` and single underscores between the digits, and the digits and spaces of all of Unicode. What is written with hexadecimal digits alone is read back.
-/

namespace Vedruino.PyInt

open CLiteral

/-- The zeros of the decimal digits outside ASCII, in Unicode 14. -/
def decimalZeros : List Nat :=
  [0x660, 0x6f0, 0x7c0, 0x966, 0x9e6, 0xa66, 0xae6, 0xb66, 0xbe6, 0xc66, 0xce6, 0xd66, 0xde6, 0xe50, 0xed0, 0xf20, 0x1040, 0x1090,
    0x17e0, 0x1810, 0x1946, 0x19d0, 0x1a80, 0x1a90, 0x1b50, 0x1bb0, 0x1c40, 0x1c50, 0xa620, 0xa8d0, 0xa900, 0xa9d0, 0xa9f0, 0xaa50,
    0xabf0, 0xff10, 0x104a0, 0x10d30, 0x11066, 0x110f0, 0x11136, 0x111d0, 0x112f0, 0x11450, 0x114d0, 0x11650, 0x116c0, 0x11730,
    0x118e0, 0x11950, 0x11c50, 0x11d50, 0x11da0, 0x16a60, 0x16ac0, 0x16b50, 0x1d7ce, 0x1d7d8, 0x1d7e2, 0x1d7ec, 0x1d7f6, 0x1e140,
    0x1e2f0, 0x1e950, 0x1fbf0]

/-- The spaces outside ASCII. -/
def spaces : List Nat :=
  [0x85, 0xa0, 0x1680, 0x2000, 0x2001, 0x2002, 0x2003, 0x2004, 0x2005, 0x2006, 0x2007, 0x2008, 0x2009, 0x200a, 0x2028, 0x2029, 0x202f,
    0x205f, 0x3000]

/-- What a character counts as; nothing is read from a question mark. -/
def toAscii (c : Char) : Char :=
  if c.toNat < 0x80 then c
  else if c.toNat ∈ spaces then ' '
  else
    match decimalZeros.find? fun z => z ≤ c.toNat ∧ c.toNat < z + 10 with
    | some z => Char.ofNat ('0'.toNat + (c.toNat - z))
    | none => '?'

def isSpace (c : Char) : Bool := c ∈ [' ', '\t', '\n', '\r', Char.ofNat 11, Char.ofNat 12]

/-- After the mark one underscore may stand. -/
def dropMark : List Char → List Char
  | a :: b :: cs => if a = '0' ∧ (b = 'x' ∨ b = 'X') then if cs.head? = some '_' then cs.tail else cs else a :: b :: cs
  | cs => cs

/-- `int(s, 16)`; `none` is a `ValueError`. -/
def int16 (s : List Char) : Option Int :=
  let cs := (s.map toAscii).dropWhile isSpace
  let neg := cs.head? = some '-'
  let cs := dropMark (if neg ∨ cs.head? = some '+' then cs.tail else cs)
  let body := cs.takeWhile fun c => isHex c || c == '_'
  let rest := cs.dropWhile fun c => isHex c || c == '_'
  if body ≠ [] ∧ body.head? ≠ some '_' ∧ body.getLast? ≠ some '_' ∧ ¬ ['_', '_'] <:+: body ∧ rest.all isSpace then
    let n : Int := number 16 (body.filter (· ≠ '_'))
    some (if neg then -n else n)
  else none

/-- `hex(n)`. -/
def hex (n : Int) : List Char := (if n < 0 then ['-'] else []) ++ '0' :: 'x' :: Nat.toDigits 16 n.natAbs

theorem isHex_digitChar {d : Nat} (hd : d < 16) : isHex d.digitChar = true := by
  interval_cases d <;> rfl

theorem digit_digitChar {d : Nat} (hd : d < 16) : digit d.digitChar = d := by
  interval_cases d <;> rfl

theorem number_append (base : Nat) (ds es : List Char) :
    number base (ds ++ es) = es.foldl (fun n d => base * n + digit d) (number base ds) := List.foldl_append

theorem number_replicate_zero (base k : Nat) (ds : List Char) : number base (List.replicate k '0' ++ ds) = number base ds := by
  induction k with
  | zero => rfl
  | succ k ih =>
    rw [List.replicate_succ, List.cons_append, number, List.foldl_cons]
    exact ih

theorem isHex_of_mem_toDigits {n : Nat} {c : Char} (h : c ∈ Nat.toDigits 16 n) : isHex c = true := by
  induction n using Nat.strongRecOn with
  | ind n ih =>
    by_cases hn : n < 16
    · rw [Nat.toDigits_of_lt_base hn, List.mem_singleton] at h
      rw [h]
      exact isHex_digitChar hn
    · rw [Nat.toDigits_of_base_le (by decide) (by omega), List.mem_append, List.mem_singleton] at h
      rcases h with h | rfl
      · exact ih (n / 16) (by omega) h
      · exact isHex_digitChar (Nat.mod_lt _ (by decide))

theorem number_toDigits (n : Nat) : number 16 (Nat.toDigits 16 n) = n := by
  induction n using Nat.strongRecOn with
  | ind n ih =>
    by_cases hn : n < 16
    · rw [Nat.toDigits_of_lt_base hn]
      exact (Nat.zero_add _).trans (digit_digitChar hn)
    · rw [Nat.toDigits_of_base_le (by decide) (by omega), number_append, ih (n / 16) (by omega), List.foldl_cons, List.foldl_nil,
        digit_digitChar (Nat.mod_lt _ (by decide))]
      omega

theorem toNat_lt_of_isHex {c : Char} (h : isHex c = true) : c.toNat < 0x80 := by
  have hle : ∀ {d : Char}, c ≤ d → d.toNat < 0x80 → c.toNat < 0x80 := fun hcd hd =>
    lt_of_le_of_lt (UInt32.le_iff_toNat_le.1 hcd) hd
  simp only [isHex, Bool.or_eq_true, Bool.and_eq_true, decide_eq_true_eq] at h
  rcases h with (h | h) | h
  · exact hle h.2 (by decide)
  · exact hle h.2 (by decide)
  · exact hle h.2 (by decide)

theorem ne_of_isHex {c d : Char} (h : isHex c = true) (hd : isHex d = false) : c ≠ d := by
  rintro rfl
  rw [hd] at h
  cases h

theorem isSpace_of_isHex {c : Char} (h : isHex c = true) : isSpace c = false := by
  simp only [isSpace, List.mem_cons, List.not_mem_nil, or_false, decide_eq_false_iff_not, not_or]
  refine ⟨?_, ?_, ?_, ?_, ?_, ?_⟩
  all_goals exact ne_of_isHex h (by decide)

theorem map_toAscii {ds : List Char} (hds : ∀ d ∈ ds, isHex d = true) : ds.map toAscii = ds := by
  have hsame : ds.map toAscii = ds.map id := by
    apply List.map_congr_left
    intro d hd
    exact if_pos (toNat_lt_of_isHex (hds d hd))
  rw [hsame, List.map_id]

theorem dropMark_of_isHex {ds : List Char} (hds : ∀ d ∈ ds, isHex d = true) : dropMark ds = ds := by
  match ds, hds with
  | [], _ => rfl
  | [_], _ => rfl
  | _ :: b :: _, hds =>
    have hb := hds b (List.mem_cons_of_mem _ List.mem_cons_self)
    rw [dropMark, if_neg]
    rintro ⟨-, hx | hx⟩
    · exact ne_of_isHex hb (by decide) hx
    · exact ne_of_isHex hb (by decide) hx

/-- What is written with digits alone. -/
theorem int16_of_isHex {ds : List Char} (hne : ds ≠ []) (hds : ∀ d ∈ ds, isHex d = true) : int16 ds = some (number 16 ds : Int) := by
  have hnot : ∀ {c : Char}, isHex c = false → c ∉ ds := fun hc hmem => ne_of_isHex (hds _ hmem) hc rfl
  have hhead : ∀ {c : Char}, isHex c = false → ds.head? ≠ some c := fun hc hmem => hnot hc (List.mem_of_head? hmem)
  have hspace : ds.dropWhile isSpace = ds := by
    obtain ⟨d, ds, rfl⟩ := List.exists_cons_of_ne_nil hne
    rw [List.dropWhile_cons_of_neg]
    rw [isSpace_of_isHex (hds d List.mem_cons_self)]
    exact Bool.false_ne_true
  have hall : ∀ d ∈ ds, (isHex d || d == '_') = true := fun d hd => by rw [hds d hd, Bool.true_or]
  obtain ⟨hbody, hrest⟩ := @span_append _ _ [] hall (by simp)
  rw [List.append_nil] at hbody hrest
  have hfilter : ds.filter (· ≠ '_') = ds := by
    rw [List.filter_eq_self]
    intro d hd
    exact decide_eq_true (ne_of_isHex (hds d hd) (by decide))
  have hminus : ¬ ds.head? = some '-' := hhead (by decide)
  have hplus : ¬ ds.head? = some '+' := hhead (by decide)
  have hdouble : ¬ ['_', '_'] <:+: ds := fun h => hnot (c := '_') (by decide) (h.subset List.mem_cons_self)
  have hlast : ds.getLast? ≠ some '_' := fun h => hnot (c := '_') (by decide) (List.mem_of_getLast? h)
  simp only [int16, map_toAscii hds, hspace, hminus, hplus, or_self, if_false, dropMark_of_isHex hds, hbody, hrest, hfilter]
  exact if_pos ⟨hne, hhead (by decide), hlast, hdouble, rfl⟩

theorem int16_leftpad (k n : Nat) : int16 ((Nat.toDigits 16 n).leftpad k '0') = some (n : Int) := by
  have hds : ∀ d ∈ (Nat.toDigits 16 n).leftpad k '0', isHex d = true := by
    intro d hd
    rcases List.mem_append.1 hd with hd | hd
    · rw [List.eq_of_mem_replicate hd]
      decide
    · exact isHex_of_mem_toDigits hd
  rw [int16_of_isHex (by simp [List.leftpad]) hds, List.leftpad, number_replicate_zero, number_toDigits]

end Vedruino.PyInt
