import Mathlib.Algebra.Order.Field.Rat
import Mathlib.Data.BitVec
import Mathlib.Tactic.Ring
import Mathlib.Tactic.FieldSimp
import Vedruino.Lwjson.Grammar

/-!
# The numbers of the parser

What `prv_parse_number` computes, with rational numbers in place of `lwjson_real_t`. Each of the three groups of digits is read into a signed integer of 64 bits, so a number is exact where each group has a value below `2^63`.
-/

namespace Vedruino.Lwjson

instance : LwReal ℚ where
  ofInt := Int.cast
  add := (· + ·)
  mul := (· * ·)
  div := (· / ·)
  neg := Neg.neg

/-- The value of a group of digits. -/
def decimal (ds : List UInt8) : Nat := ds.foldl (fun n d => 10 * n + (d.toNat - (ch '0').toNat)) 0

/-- The number that is written. -/
def NumText.num (n : NumText) : ℚ :=
  let frac : ℚ := n.frac.elim 0 fun ds => decimal ds / 10 ^ ds.length
  let scale : ℚ := n.exp.elim 1 fun e => if e.minus then (10 ^ decimal e.digits)⁻¹ else 10 ^ decimal e.digits
  (if n.minus then -1 else 1) * ((decimal n.int + frac) * scale)

private theorem pushDigit_ofNat (n : Nat) {d : UInt8} (hd : isDigit d = true) :
    pushDigit (BitVec.ofNat 64 n) d = BitVec.ofNat 64 (10 * n + (d.toNat - (ch '0').toNat)) := by
  have hle : 48 ≤ d.toNat := by
    rw [isDigit, Bool.and_eq_true, decide_eq_true_eq] at hd
    exact UInt8.le_iff_toNat_le.1 hd.1
  have hlt := d.toNat_lt
  have hzero : (ch '0').toNat = 48 ∧ (0x30 : BitVec 64).toNat = 48 ∧ (10 : BitVec 64).toNat = 10 := ⟨rfl, rfl, rfl⟩
  apply BitVec.eq_of_toNat_eq
  rw [pushDigit, hzero.1, BitVec.toNat_add, BitVec.toNat_mul, BitVec.toNat_sub, hzero.2.1, hzero.2.2]
  simp only [BitVec.toNat_ofNat]
  omega

/-- The integer that a group of digits is read into. -/
theorem digitsValue_eq {ds : List UInt8} (h : ∀ d ∈ ds, isDigit d = true) : digitsValue ds = BitVec.ofNat 64 (decimal ds) := by
  have hfold (n : Nat) : ds.foldl pushDigit (BitVec.ofNat 64 n) =
      BitVec.ofNat 64 (ds.foldl (fun n d => 10 * n + (d.toNat - (ch '0').toNat)) n) := by
    induction ds generalizing n with
    | nil => rfl
    | cons d ds ih =>
      obtain ⟨hd, hds⟩ := List.forall_mem_cons.1 h
      rw [List.foldl_cons, List.foldl_cons, pushDigit_ofNat n hd, ih hds]
  exact hfold 0

theorem toInt_digitsValue {ds : List UInt8} (h : IsDigits ds) (hlt : decimal ds < 2 ^ 63) : (digitsValue ds).toInt = decimal ds := by
  rw [digitsValue_eq h.2, BitVec.toInt_eq_toNat_cond, BitVec.toNat_ofNat, Nat.mod_eq_of_lt (by omega), if_pos (by omega)]

private theorem iterate_mul (k : Nat) (x : ℚ) : (fun r : ℚ => LwReal.mul r (LwReal.ofInt 10))^[k] x = x * 10 ^ k := by
  induction k with
  | zero => exact (mul_one x).symm
  | succ k ih =>
    rw [Function.iterate_succ_apply', ih]
    show x * 10 ^ k * ((10 : Int) : ℚ) = _
    push_cast
    ring

private theorem iterate_div (k : Nat) (x : ℚ) : (fun r : ℚ => LwReal.div r (LwReal.ofInt 10))^[k] x = x * (10 ^ k)⁻¹ := by
  induction k with
  | zero => simp
  | succ k ih =>
    rw [Function.iterate_succ_apply', ih]
    show x * (10 ^ k)⁻¹ / ((10 : Int) : ℚ) = _
    push_cast
    field_simp
    ring

/-- The loop over the digits after the point has a power of ten for each of them. -/
theorem foldl_exp (ds : List UInt8) (x : ℚ) :
    ds.foldl (fun exp _ => LwReal.mul exp (LwReal.ofInt 10)) x = x * 10 ^ ds.length := by
  induction ds generalizing x with
  | nil => exact (mul_one x).symm
  | cons d ds ih =>
    rw [List.foldl_cons, ih, List.length_cons]
    show x * ((10 : Int) : ℚ) * 10 ^ ds.length = _
    push_cast
    ring

/-- The groups of digits whose values the parser can hold. -/
structure NumText.Small (n : NumText) : Prop where
  int : decimal n.int < 2 ^ 63
  frac : ∀ ds ∈ n.frac, decimal ds < 2 ^ 63
  exp : ∀ e ∈ n.exp, decimal e.digits < 2 ^ 63

theorem fracValue_eq {n : NumText} (hn : n.Wf) (hsmall : n.Small) (x : ℚ) :
    fracValue x n.frac = x + n.frac.elim 0 fun ds => (decimal ds / 10 ^ ds.length : ℚ) := by
  cases hfrac : n.frac with
  | none => exact (add_zero x).symm
  | some ds =>
    rw [fracValue, toInt_digitsValue (hn.frac ds hfrac) (hsmall.frac ds hfrac), foldl_exp]
    show x + ((decimal ds : Int) : ℚ) / (((1 : Int) : ℚ) * 10 ^ ds.length) = x + _
    push_cast
    rw [one_mul]
    rfl

theorem expValue_eq {n : NumText} (hn : n.Wf) (hsmall : n.Small) (x : ℚ) :
    expValue x n.exp =
      x * n.exp.elim 1 fun e => if e.minus then ((10 : ℚ) ^ decimal e.digits)⁻¹ else 10 ^ decimal e.digits := by
  cases hexp : n.exp with
  | none => exact (mul_one x).symm
  | some e =>
    have hdigits := toInt_digitsValue (hn.exp e hexp).2 (hsmall.exp e hexp)
    rw [expValue, hdigits, Int.toNat_natCast, Option.elim_some]
    cases e.minus with
    | true => exact iterate_div _ x
    | false => exact iterate_mul _ x

/-- The token of a number whose groups of digits are small says the number that is written. -/
theorem NumText.value_eq {n : NumText} (hn : n.Wf) (hsmall : n.Small) :
    if n.frac = none ∧ n.exp = none then ∃ b, (n.value : LwjsonType × U ℚ) = (.numInt, .numInt b) ∧ (b.toInt : ℚ) = n.num
    else (n.value : LwjsonType × U ℚ) = (.numReal, .numReal n.num) := by
  have hlt := hsmall.int
  have hint := toInt_digitsValue hn.int hlt
  rw [NumText.value]
  simp only [Option.isNone_iff_eq_none]
  by_cases hplain : n.frac = none ∧ n.exp = none
  · rw [if_pos hplain, if_pos hplain]
    refine ⟨_, rfl, ?_⟩
    rw [NumText.num, hplain.1, hplain.2]
    cases n.minus with
    | true =>
      have hneg : (-digitsValue n.int).toInt = -(decimal n.int : Int) := by
        rw [BitVec.toInt_neg, hint, Int.bmod_eq_of_le (by omega) (by omega)]
      rw [if_pos rfl, hneg]
      simp
    | false =>
      rw [if_neg Bool.false_ne_true, hint]
      simp
  · rw [if_neg hplain, if_neg hplain, expValue_eq hn hsmall, fracValue_eq hn hsmall, hint, NumText.num]
    cases n.minus with
    | true =>
      rw [if_pos rfl, if_pos rfl, neg_one_mul]
      rfl
    | false =>
      rw [if_neg Bool.false_ne_true, if_neg Bool.false_ne_true, one_mul]
      rfl

/-- **Where the groups of digits are small the parser reads a number exactly, whatever stands before and behind it, were its real numbers rational: without a point and an exponent to an integer, and else to a real number.** -/
theorem prvParseNumber_exact {n : NumText} (hn : n.Wf) (hsmall : n.Small) {pre t : List UInt8} (hpre : 0 ∉ pre) (ht : Stops t)
    (h0 : 0 ∉ t) (junk : List UInt8) {len : Nat} (hlen : pre.length < len) :
    ∃ type u, prvParseNumber (pre ++ (n.text ++ t) ++ 0 :: junk) len (n.text ++ t ++ 0 :: junk) = .ok (t ++ 0 :: junk, type, u) ∧
      if n.frac = none ∧ n.exp = none then type = .numInt ∧ ∃ b, u = .numInt b ∧ (b.toInt : ℚ) = n.num
      else type = .numReal ∧ u = .numReal n.num := by
  have hzero : 0 ∉ pre ++ (n.text ++ t) := by
    rw [List.mem_append, List.mem_append, not_or, not_or]
    exact ⟨hpre, hn.zero_not_mem, h0⟩
  obtain ⟨c, s, htext, hc⟩ := isDigit_of_number hn
  have hsplit : n.text ++ t = c :: (s ++ t) := by rw [htext, List.cons_append]
  have hnumber := number_text (R := ℚ) hn ht
  rw [hsplit] at hzero hnumber ⊢
  have hlive : (pre ++ c :: (s ++ t)).length - len < (s ++ t).length + 1 := by
    rw [List.length_append, List.length_cons]
    omega
  rw [prvParseNumber_append hzero (List.suffix_append _ _) hlive hc, hnumber]
  refine ⟨(n.value : LwjsonType × U ℚ).1, (n.value : LwjsonType × U ℚ).2, rfl, ?_⟩
  have hvalue := NumText.value_eq hn hsmall
  revert hvalue
  split
  next =>
    rintro ⟨b, hvalue, hb⟩
    rw [hvalue]
    exact ⟨rfl, b, rfl, hb⟩
  next =>
    intro hvalue
    rw [hvalue]
    exact ⟨rfl, rfl⟩

theorem prvParseNumber_exact_seven :
    ∃ type u, prvParseNumber (R := ℚ) [ch '[', ch '-', ch '7', ch ']', 0] 4 [ch '-', ch '7', ch ']', 0] = .ok ([ch ']', 0], type, u) ∧
      type = .numInt ∧ ∃ b, u = .numInt b ∧ (b.toInt : ℚ) = NumText.num ⟨true, [ch '7'], none, none⟩ := by
  have hwf : NumText.Wf ⟨true, [ch '7'], none, none⟩ :=
    ⟨⟨by decide, List.forall_mem_singleton.2 rfl⟩, (fun _ h => nomatch h), fun _ h => nomatch h⟩
  have hsmall : NumText.Small ⟨true, [ch '7'], none, none⟩ := ⟨by decide, (fun _ h => nomatch h), fun _ h => nomatch h⟩
  have hstops : Stops [ch ']'] := by simp [Stops, ch, isDigit, isPoint, isExpMark]
  obtain ⟨type, u, heq, hvalue⟩ := prvParseNumber_exact hwf hsmall (by decide : 0 ∉ [ch '[']) hstops (by decide) []
    (by decide : 1 < 4)
  rw [if_pos ⟨rfl, rfl⟩] at hvalue
  exact ⟨type, u, heq, hvalue⟩

end Vedruino.Lwjson
