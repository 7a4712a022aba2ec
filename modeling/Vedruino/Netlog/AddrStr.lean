import Mathlib.Data.Vector.Basic
import Vedruino.Ip.Tcp
import Vedruino.Mqtt.Topics
import Vedruino.Netlog.Subscriptions

/-!
# The identity of a client

`ctl_handle_req` renders the address of a client into a buffer of its own, `ctl_sub` copies the string to the entry, and a later request finds the entry by comparing its string with `strcmp`. All these buffers have `PK_IP_ADDR_STR_LEN` bytes and hold anything before.
-/

namespace Vedruino.Netlog

open Ip Mqtt

/-- A `char [PK_IP_ADDR_STR_LEN]`. -/
abbrev AddrBuf := List.Vector UInt8 addrStrLen

private theorem length_overwrite (buf : AddrBuf) {bs : List UInt8} (h : bs.length ≤ addrStrLen) :
    (overwrite buf.toList bs).length = addrStrLen := by
  rw [overwrite, List.length_append, List.length_drop, List.Vector.toList_length]
  exact Nat.add_sub_of_le h

/-- Bytes written to the start of the buffer; those behind stay. -/
def writeStart (buf : AddrBuf) (bs : List UInt8) (h : bs.length ≤ addrStrLen) : AddrBuf :=
  ⟨overwrite buf.toList bs, length_overwrite buf h⟩

/-- `pk_ip_addr2str` on its buffer: `snprintf` writes what it keeps of the text and a zero. -/
def pkIpAddr2strTo (str : AddrBuf) (addr : IpAddr) : AddrBuf :=
  writeStart str (ascii (pkIpAddr2str addr) ++ [0]) <| by
    rw [List.length_append, ascii, List.length_map, pkIpAddr2str, List.length_take]
    exact Nat.add_le_of_le_sub (by decide) (Nat.min_le_left _ _)

/-- `strcpy` from one buffer to another; `none` where no zero ends the string within the buffer. -/
def strcpy (dst src : AddrBuf) : Option AddrBuf :=
  if h : (cStr src.toList).bytes.length < addrStrLen then
    some (writeStart dst ((cStr src.toList).bytes ++ [0]) (by rw [List.length_append]; exact h))
  else none

/-- `get_client_idx_by_addr_str` on the bytes of the entries in use. -/
def getClientIdx (addrStrs : List AddrBuf) (addrStr : AddrBuf) : Option Nat :=
  addrStrs.findIdx? fun s => strcmp (cStr addrStr.toList) (cStr s.toList) = 0

/-- What the entry of a client at the address holds in its `addr_str`. -/
def StoredFor (addrStr : AddrBuf) (addr : IpAddr) : Prop :=
  ∃ dst logAddrStr, strcpy dst (pkIpAddr2strTo logAddrStr addr) = some addrStr

/-! ### The bytes of the text -/

theorem toNat_of_mem_addrText {a : IpAddr} {c : Char} (h : c ∈ addrText a) : 0 < c.toNat ∧ c.toNat < 128 := by
  have hdecimal : ∀ n, c ∈ decimal n → 0 < c.toNat ∧ c.toNat < 128 := by
    intro n hc
    have hdigit := decimal_isDigit hc
    rw [Char.isDigit_iff_toNat] at hdigit
    have hzero : '0'.toNat = 48 := rfl
    have hnine : '9'.toNat = 57 := rfl
    exact ⟨by omega, by omega⟩
  simp only [addrText, List.mem_append, List.mem_cons] at h
  rcases h with h | rfl | h | rfl | h | rfl | h | rfl | h
  · exact hdecimal _ h
  · decide
  · exact hdecimal _ h
  · decide
  · exact hdecimal _ h
  · decide
  · exact hdecimal _ h
  · decide
  · exact hdecimal _ h

theorem toNat_ofNat_of_mem {a : IpAddr} {c : Char} (h : c ∈ addrText a) : (UInt8.ofNat c.toNat).toNat = c.toNat :=
  UInt8.toNat_ofNat_of_lt (Nat.lt_trans (toNat_of_mem_addrText h).2 (by decide))

private theorem zero_not_mem_ascii (a : IpAddr) : 0 ∉ ascii (addrText a) := by
  intro h
  obtain ⟨c, hc, hzero⟩ := List.mem_map.1 h
  have hnat := congrArg UInt8.toNat hzero
  rw [toNat_ofNat_of_mem hc] at hnat
  exact absurd hnat (toNat_of_mem_addrText hc).1.ne'

private theorem ascii_addrText_inj {a b : IpAddr} : ascii (addrText a) = ascii (addrText b) ↔ a = b := by
  constructor
  · intro h
    have hchars : ∀ a, (ascii (addrText a)).map (fun b => Char.ofNat b.toNat) = addrText a := by
      intro a
      rw [ascii, List.map_map]
      refine (List.map_congr_left fun c hc => ?_).trans (List.map_id _)
      rw [Function.comp_apply, toNat_ofNat_of_mem hc, Char.ofNat_toNat, id_eq]
    apply addrText_injective
    rw [← hchars a, ← hchars b, h]
  · rintro rfl
    rfl

/-! ### The buffers -/

theorem toList_writeStart {buf : AddrBuf} {bs : List UInt8} {h : bs.length ≤ addrStrLen} : bs <+: (writeStart buf bs h).toList :=
  List.prefix_append _ _

def addrCStr (a : IpAddr) : CStr := ⟨ascii (addrText a), zero_not_mem_ascii a⟩

theorem prefix_pkIpAddr2strTo (str : AddrBuf) (a : IpAddr) : ascii (addrText a) ++ [0] <+: (pkIpAddr2strTo str a).toList := by
  rw [← pkIpAddr2str_eq]
  exact toList_writeStart

theorem cStr_pkIpAddr2strTo (str : AddrBuf) (a : IpAddr) : cStr (pkIpAddr2strTo str a).toList = addrCStr a :=
  cStr_of_prefix (a := addrCStr a) (prefix_pkIpAddr2strTo str a)

private theorem cStr_of_storedFor {s : AddrBuf} {a : IpAddr} (h : StoredFor s a) : cStr s.toList = addrCStr a := by
  obtain ⟨dst, str, hcopy⟩ := h
  rw [strcpy] at hcopy
  split at hcopy
  · cases hcopy
    refine cStr_of_prefix ?_
    rw [← cStr_pkIpAddr2strTo str a]
    exact toList_writeStart
  · cases hcopy

private theorem exists_strcpy (dst str : AddrBuf) (a : IpAddr) : ∃ s, strcpy dst (pkIpAddr2strTo str a) = some s := by
  have hlen : (cStr (pkIpAddr2strTo str a).toList).bytes.length < addrStrLen := by
    rw [cStr_pkIpAddr2strTo]
    show (ascii (addrText a)).length < addrStrLen
    have := addrText_length_le a
    rw [ascii, List.length_map, addrStrLen]
    omega
  rw [strcpy, dif_pos hlen]
  exact ⟨_, rfl⟩

/-! ### The search -/

theorem findIdx?_congr {α β : Type*} {R : α → β → Prop} {p : α → Bool} {q : β → Bool} {xs : List α} {ys : List β}
    (h : List.Forall₂ R xs ys) (hpq : ∀ x y, R x y → p x = q y) : xs.findIdx? p = ys.findIdx? q := by
  induction h with
  | nil => rfl
  | cons hxy _ ih => rw [List.findIdx?_cons, List.findIdx?_cons, hpq _ _ hxy, ih]

theorem strcmp_addrCStr {a b : IpAddr} : strcmp (addrCStr a) (addrCStr b) = 0 ↔ a = b := by
  rw [strcmp_eq_zero]
  exact ⟨fun h => ascii_addrText_inj.1 (congrArg CStr.bytes h), congrArg addrCStr⟩

theorem getClientIdx_eq {addrStrs : List AddrBuf} {addrs : List IpAddr} (h : List.Forall₂ StoredFor addrStrs addrs)
    (str : AddrBuf) (a : IpAddr) : getClientIdx addrStrs (pkIpAddr2strTo str a) = addrs.findIdx? (· = a) := by
  refine findIdx?_congr h fun s b hs => ?_
  rw [cStr_of_storedFor hs, cStr_pkIpAddr2strTo, decide_eq_decide, strcmp_addrCStr]
  exact eq_comm

theorem Table.getClientIdxByAddrStr_eq {t : Table} {addrs : List IpAddr}
    (h : List.Forall₂ (fun c a => c.Serves (c.proto, a)) t.live addrs) (a : IpAddr) :
    t.getClientIdxByAddrStr (pkIpAddr2str a) = addrs.findIdx? (· = a) := by
  refine findIdx?_congr h fun c b hc => ?_
  rw [hc.addrStr, decide_eq_decide, pkIpAddr2str_eq_iff]

theorem Table.Addressed.exists_addrs {t : Table} (h : t.Addressed) :
    ∃ addrs, List.Forall₂ (fun c a => c.Serves (c.proto, a)) t.live addrs := by
  rw [Table.Addressed] at h
  generalize t.live = cs at h
  induction cs with
  | nil => exact ⟨[], .nil⟩
  | cons c cs ih =>
    obtain ⟨⟨k, hk⟩, hcs⟩ := List.forall_mem_cons.1 h
    obtain ⟨addrs, haddrs⟩ := ih hcs
    refine ⟨k.2 :: addrs, .cons ?_ haddrs⟩
    rwa [hk.proto]

/-- **The text of an address and a port fits into its buffer with its zero, and a copy of it into another; `strcmp` finds two of them equal exactly when addresses and ports are. So after any history each entry in use is for one address and port, and the search for a string finds what a search for the address and the port would.** -/
theorem addrStr_identifies {cfg : Config} {s : Control} (hs : (control cfg).Reachable s) :
    (∀ str a, ascii (addrText a) ++ [0] <+: (pkIpAddr2strTo str a).toList ∧
      ∀ dst, (strcpy dst (pkIpAddr2strTo str a)).isSome) ∧
      (∀ str str' a b, strcmp (cStr (pkIpAddr2strTo str a).toList) (cStr (pkIpAddr2strTo str' b).toList) = 0 ↔ a = b) ∧
      ∃ addrs, List.Forall₂ (fun c a => c.Serves (c.proto, a)) s.table.live addrs ∧
        ∀ a, s.table.getClientIdxByAddrStr (pkIpAddr2str a) = addrs.findIdx? (· = a) ∧
          ∀ addrStrs str, List.Forall₂ StoredFor addrStrs addrs →
            getClientIdx addrStrs (pkIpAddr2strTo str a) = addrs.findIdx? (· = a) := by
  refine ⟨fun str a => ⟨prefix_pkIpAddr2strTo str a, fun dst => ?_⟩, fun str str' a b => ?_, ?_⟩
  · obtain ⟨s, hcopy⟩ := exists_strcpy dst str a
    rw [hcopy]
    rfl
  · rw [cStr_pkIpAddr2strTo, cStr_pkIpAddr2strTo, strcmp_addrCStr]
  · obtain ⟨addrs, haddrs⟩ := (Control.addressed_of_reachable hs).exists_addrs
    refine ⟨addrs, haddrs, fun a => ⟨Table.getClientIdxByAddrStr_eq haddrs a, fun addrStrs str hstored => ?_⟩⟩
    exact getClientIdx_eq hstored str a

theorem addrStr_identifies_udpClient : ∃ addrs,
    List.Forall₂ (fun c a => c.Serves (c.proto, a)) udpClient.table.live addrs ∧
      udpClient.table.getClientIdxByAddrStr (pkIpAddr2str ⟨0x7f000001, 9⟩) = addrs.findIdx? (· = ⟨0x7f000001, 9⟩) := by
  obtain ⟨addrs, haddrs, hsearch⟩ := (addrStr_identifies udpClient_reachable).2.2
  exact ⟨addrs, haddrs, (hsearch _).1⟩

end Vedruino.Netlog
