import Mathlib.Tactic.IntervalCases

/-!
# Addresses and their strings

`pk_ip_addr2str` renders an address and a port as text, and netlog tells its clients apart by this text. A decimal number contains no separator, so the text can be read back field by field, and it always fits into the buffer.
-/

namespace Vedruino.Ip

structure IpAddr where
  addr : BitVec 32
  port : BitVec 16
  deriving DecidableEq, Repr

/-- `PK_IP_ADDR_STR_LEN`, with the terminating zero. -/
def addrStrLen : Nat := 16 + 1 + 6 + 1

def decimal (n : Nat) : List Char := Nat.toDigits 10 n

def addrByte (addr mask : BitVec 32) (shift : Nat) : BitVec 8 := ((addr &&& mask) >>> shift).setWidth 8

/-- The text `%d.%d.%d.%d:%d`, before `snprintf` cuts it. -/
def addrText (a : IpAddr) : List Char :=
  decimal (addrByte a.addr 0xff000000 24).toNat ++ '.' :: (decimal (addrByte a.addr 0x00ff0000 16).toNat ++ '.' ::
    (decimal (addrByte a.addr 0x0000ff00 8).toNat ++ '.' :: (decimal (addrByte a.addr 0x000000ff 0).toNat ++ ':' ::
      decimal a.port.toNat)))

/-- `pk_ip_addr2str`: `snprintf` keeps one byte of the buffer for the zero. -/
def pkIpAddr2str (a : IpAddr) : List Char := (addrText a).take (addrStrLen - 1)

theorem decimal_isDigit {n : Nat} {c : Char} (h : c ∈ decimal n) : c.isDigit = true :=
  Nat.isDigit_of_mem_toDigits (by decide) (by decide) h

theorem decimal_injective {m n : Nat} (h : decimal m = decimal n) : m = n := by
  rw [← Nat.ofDigitChars_ten_toDigits (n := m), ← Nat.ofDigitChars_ten_toDigits (n := n)]
  exact congrArg (fun cs => Nat.ofDigitChars 10 cs 0) h

theorem decimal_length_le {n k : Nat} (hk : 0 < k) (h : n < 10 ^ k) : (decimal n).length ≤ k :=
  (Nat.length_toDigits_le_iff (by decide) hk).2 h

theorem decimal_append_inj {m n : Nat} {sep : Char} {xs ys : List Char} (hsep : sep.isDigit = false)
    (h : decimal m ++ sep :: xs = decimal n ++ sep :: ys) : m = n ∧ xs = ys := by
  have htake : ∀ k zs, (decimal k ++ sep :: zs).takeWhile Char.isDigit = decimal k := by
    intro k zs
    rw [List.takeWhile_append_of_pos fun c hc => decimal_isDigit hc]
    simp [hsep]
  have hdrop : ∀ k zs, (decimal k ++ sep :: zs).dropWhile Char.isDigit = sep :: zs := by
    intro k zs
    rw [List.dropWhile_append_of_pos fun c hc => decimal_isDigit hc]
    simp [hsep]
  have hnum := congrArg (List.takeWhile Char.isDigit) h
  have hrest := congrArg (List.dropWhile Char.isDigit) h
  rw [htake, htake] at hnum
  rw [hdrop, hdrop, List.cons.injEq] at hrest
  exact ⟨decimal_injective hnum, hrest.2⟩

theorem addr_eq_of_addrByte_eq {a b : BitVec 32} (h₃ : addrByte a 0xff000000 24 = addrByte b 0xff000000 24)
    (h₂ : addrByte a 0x00ff0000 16 = addrByte b 0x00ff0000 16)
    (h₁ : addrByte a 0x0000ff00 8 = addrByte b 0x0000ff00 8)
    (h₀ : addrByte a 0x000000ff 0 = addrByte b 0x000000ff 0) : a = b := by
  apply BitVec.eq_of_getLsbD_eq
  intro i hi
  have hbit : ∀ (mask : BitVec 32) (shift : Nat), shift ≤ i → i - shift < 8 → mask.getLsbD i = true →
      addrByte a mask shift = addrByte b mask shift → a.getLsbD i = b.getLsbD i := by
    intro mask shift hle hlt hmask heq
    have := congrArg (fun w => BitVec.getLsbD w (i - shift)) heq
    simpa [addrByte, hlt, Nat.add_sub_cancel' hle, hmask] using this
  rcases (by omega : i < 8 ∨ (8 ≤ i ∧ i < 16) ∨ (16 ≤ i ∧ i < 24) ∨ 24 ≤ i) with h | h | h | h
  · exact hbit _ 0 (by omega) (by omega) (by interval_cases i <;> rfl) h₀
  · exact hbit _ 8 (by omega) (by omega) (by obtain ⟨_, _⟩ := h; interval_cases i <;> rfl) h₁
  · exact hbit _ 16 (by omega) (by omega) (by obtain ⟨_, _⟩ := h; interval_cases i <;> rfl) h₂
  · exact hbit _ 24 (by omega) (by omega) (by interval_cases i <;> rfl) h₃

theorem addrText_injective {a b : IpAddr} (h : addrText a = addrText b) : a = b := by
  obtain ⟨h₃, h⟩ := decimal_append_inj (by decide) h
  obtain ⟨h₂, h⟩ := decimal_append_inj (by decide) h
  obtain ⟨h₁, h⟩ := decimal_append_inj (by decide) h
  obtain ⟨h₀, hport⟩ := decimal_append_inj (by decide) h
  have haddr := addr_eq_of_addrByte_eq (BitVec.eq_of_toNat_eq h₃) (BitVec.eq_of_toNat_eq h₂)
    (BitVec.eq_of_toNat_eq h₁) (BitVec.eq_of_toNat_eq h₀)
  have hport := BitVec.eq_of_toNat_eq (decimal_injective hport)
  cases a
  cases b
  simp_all

theorem addrText_length_le (a : IpAddr) : (addrText a).length ≤ 21 := by
  have hbyte : ∀ mask shift, (decimal (addrByte a.addr mask shift).toNat).length ≤ 3 := by
    intro mask shift
    have := (addrByte a.addr mask shift).isLt
    exact decimal_length_le (by decide) (by omega)
  have hport : (decimal a.port.toNat).length ≤ 5 := by
    have := a.port.isLt
    exact decimal_length_le (by decide) (by omega)
  have h₃ := hbyte 0xff000000 24
  have h₂ := hbyte 0x00ff0000 16
  have h₁ := hbyte 0x0000ff00 8
  have h₀ := hbyte 0x000000ff 0
  simp only [addrText, List.length_append, List.length_cons]
  omega

theorem pkIpAddr2str_eq (a : IpAddr) : pkIpAddr2str a = addrText a := by
  have := addrText_length_le a
  exact List.take_of_length_le (by simp only [addrStrLen]; omega)

example : String.ofList (pkIpAddr2str ⟨0xc0a80001, 8419⟩) = "192.168.0.1:8419" := by rfl

theorem pkIpAddr2str_eq_iff {a b : IpAddr} : pkIpAddr2str a = pkIpAddr2str b ↔ a = b := by
  rw [pkIpAddr2str_eq, pkIpAddr2str_eq]
  exact ⟨addrText_injective, congrArg addrText⟩

end Vedruino.Ip
