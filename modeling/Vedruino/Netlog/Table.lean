import Mathlib.Data.List.Nodup
import Vedruino.Ip.Addr

/-!
# The netlog client table

The table is a static array of `CONF_LIB_NETLOG_MAX_CLIENTS` entries with two counters beside it. Only the first `clients_num` entries mean anything; the others hold whatever was in memory. The operations work on the array as the code does, and the lemmas say what they do to the entries in use.
-/

namespace Vedruino.Netlog

open Ip

/-- The `max_clients` and `buf_size` of the configuration. With a buffer of no bytes a flush to a UDP client would send empty blocks without end. -/
structure Config where
  maxClients : Nat
  bufSize : Nat
  bufSize_pos : 0 < bufSize

/-- The `udp` part of an entry: the counter is a field of seven bits. -/
structure Udp where
  flag : Bool
  packCnt : BitVec 7
  addrPort : IpAddr
  deriving DecidableEq, Repr

/-- `pkNetlogClient_t`. -/
structure Client where
  hd : Int
  addrStr : List Char
  udp : Udp
  deriving DecidableEq, Repr

/-- The entry without its packet counter, the only part of it that a flush changes. -/
def Client.fixed (c : Client) : Client := { c with udp := { c.udp with packCnt := 0 } }

def udpCount (cs : List Client) : Nat := cs.countP (·.udp.flag)

/-- The static variables `clients`, `clients_num` and `udp_clients_num`. -/
structure Table where
  clients : List Client
  clientsNum : Int
  udpClientsNum : Int
  deriving DecidableEq, Repr

namespace Table

/-- The entries in use. -/
def live (t : Table) : List Client := t.clients.take t.clientsNum.toNat

/-- `get_client_idx_by_addr_str`; `none` is its `-1`. -/
def getClientIdxByAddrStr (t : Table) (addrStr : List Char) : Option Nat :=
  t.live.findIdx? fun c => c.addrStr = addrStr

/-- `get_free_idx_in_clients`; `none` is its `-1`. -/
def getFreeIdxInClients (cfg : Config) (t : Table) : Option Nat :=
  if t.clientsNum = cfg.maxClients then none else some t.clientsNum.toNat

end Table

/-- `memmove` of `n` entries of an array from index `src` down to `dst`. -/
def memmove {α : Type*} (xs : List α) (dst src n : Nat) : List α :=
  xs.take dst ++ (xs.drop src).take n ++ xs.drop (dst + n)

namespace Table

/-- `del_client`. An index outside the array is never used: `i` is below `clients_num`. -/
def delClient (t : Table) (i : Nat) : Table :=
  match t.clients[i]? with
  | none => t
  | some c =>
    { clients := if (i : Int) ≠ t.clientsNum - 1 then memmove t.clients i (i + 1) (t.clientsNum - i - 1).toNat
        else t.clients
      udpClientsNum := if c.udp.flag then t.udpClientsNum - 1 else t.udpClientsNum
      clientsNum := t.clientsNum - 1 }

/-- The last critical section of `ctl_sub`, at index `i`. The fields of `udp` other than the flag are only set for UDP. -/
def addClient (t : Table) (i : Nat) (hd : Int) (isUdp : Bool) (addr : IpAddr) (addrStr : List Char) : Table :=
  { clients := t.clients.modify i fun c =>
      { hd, addrStr, udp := if isUdp then ⟨true, 0, addr⟩ else { c.udp with flag := false } }
    udpClientsNum := if isUdp then t.udpClientsNum + 1 else t.udpClientsNum
    clientsNum := t.clientsNum + 1 }

/-- The counters fit the array and each other. -/
structure Counted (cfg : Config) (t : Table) : Prop where
  size : t.clients.length = cfg.maxClients
  nonneg : 0 ≤ t.clientsNum
  le_max : t.clientsNum ≤ cfg.maxClients
  udp : t.udpClientsNum = udpCount t.live

def Distinct (t : Table) : Prop := (t.live.map Client.addrStr).Nodup

instance (t : Table) : Decidable t.Distinct := inferInstanceAs (Decidable (List.Nodup _))

variable {cfg : Config} {t : Table}

theorem Counted.length_live (h : t.Counted cfg) : (t.live.length : Int) = t.clientsNum := by
  have := h.size
  have := h.nonneg
  have := h.le_max
  simp only [live, List.length_take]
  omega

theorem Counted.toNat_clientsNum (h : t.Counted cfg) : t.clientsNum.toNat = t.live.length := by
  have := h.length_live
  omega

theorem getElem?_live {i : Nat} (hi : i < t.live.length) : t.clients[i]? = t.live[i]? := by
  rw [live, List.length_take] at hi
  rw [live, List.getElem?_take_of_lt (by omega)]

theorem getClientIdxByAddrStr_eq_none {a : List Char} :
    t.getClientIdxByAddrStr a = none ↔ a ∉ t.live.map Client.addrStr := by
  simp [getClientIdxByAddrStr]

theorem getClientIdxByAddrStr_eq_some {a : List Char} {i : Nat} (h : t.getClientIdxByAddrStr a = some i) :
    ∃ c, t.live[i]? = some c ∧ c.addrStr = a := by
  rw [getClientIdxByAddrStr, List.findIdx?_eq_some_iff_getElem] at h
  obtain ⟨hi, ha, -⟩ := h
  exact ⟨_, List.getElem?_eq_getElem hi, by simpa using ha⟩

theorem Counted.getFreeIdxInClients_eq (h : t.Counted cfg) :
    t.getFreeIdxInClients cfg = if t.live.length = cfg.maxClients then none else some t.live.length := by
  have hlen := h.length_live
  rw [getFreeIdxInClients, h.toNat_clientsNum]
  by_cases hmax : t.live.length = cfg.maxClients
  · rw [if_pos hmax, if_pos (by omega)]
  · rw [if_neg hmax, if_neg (by omega)]

private theorem take_memmove {α : Type*} (xs : List α) {i n : Nat} (hi : i < n) (hn : n ≤ xs.length) :
    (memmove xs i (i + 1) (n - i - 1)).take (n - 1) = (xs.take n).eraseIdx i := by
  have hlen : (xs.take i ++ (xs.drop (i + 1)).take (n - i - 1)).length = n - 1 := by
    simp only [List.length_append, List.length_take, List.length_drop]
    omega
  rw [memmove, List.take_append_of_le_length (by omega), List.take_of_length_le (by omega),
    List.eraseIdx_eq_take_drop_succ, List.take_take, List.drop_take, Nat.min_eq_left (by omega), Nat.sub_sub]

private theorem eraseIdx_take_last {α : Type*} (xs : List α) (n : Nat) :
    (xs.take (n + 1)).eraseIdx n = xs.take n := by
  rw [List.eraseIdx_eq_take_drop_succ, List.take_take, Nat.min_eq_left (Nat.le_succ n), List.drop_eq_nil_of_le,
    List.append_nil]
  exact List.length_take_le _ _

theorem Counted.live_delClient (h : t.Counted cfg) {i : Nat} (hi : i < t.live.length) :
    (t.delClient i).live = t.live.eraseIdx i := by
  have hlen := h.length_live
  have hle : t.live.length ≤ t.clients.length := by
    rw [live, List.length_take]
    omega
  have hlive : t.live = t.clients.take t.live.length := by rw [← h.toNat_clientsNum, live]
  have hnum : (t.clientsNum - 1).toNat = t.live.length - 1 := by omega
  have hcount : (t.clientsNum - i - 1).toNat = t.live.length - i - 1 := by omega
  have hget : t.clients[i]? = some t.live[i] := (getElem?_live hi).trans (List.getElem?_eq_getElem hi)
  generalize t.live[i] = c at hget
  rw [Table.delClient, hget]
  show List.take (t.clientsNum - 1).toNat _ = _
  rw [hnum, hcount]
  generalize t.live.length = n at *
  rw [hlive]
  by_cases hlast : (i : Int) ≠ t.clientsNum - 1
  · rw [if_pos hlast, take_memmove _ hi hle]
  · rw [if_neg hlast]
    obtain rfl : n = i + 1 := by omega
    rw [eraseIdx_take_last, Nat.add_sub_cancel]

theorem Counted.delClient (h : t.Counted cfg) {i : Nat} (hi : i < t.live.length) :
    (t.delClient i).Counted cfg := by
  have hlen := h.length_live
  have hsize := h.size
  have hmax := h.le_max
  have hlive := h.live_delClient hi
  rw [Table.delClient, getElem?_live hi, List.getElem?_eq_getElem hi] at hlive ⊢
  refine ⟨?_, ?_, ?_, ?_⟩
  · dsimp only
    split
    · simp only [memmove, List.length_append, List.length_take, List.length_drop]
      omega
    · exact hsize
  · dsimp only
    omega
  · dsimp only
    omega
  · rw [hlive]
    dsimp only
    have hcount : udpCount t.live = udpCount (t.live.eraseIdx i) + if t.live[i].udp.flag then 1 else 0 := by
      rw [udpCount, udpCount, List.eraseIdx_eq_take_drop_succ]
      nth_rewrite 1 [← List.take_append_drop i t.live]
      rw [List.drop_eq_getElem_cons hi, List.countP_append, List.countP_cons, List.countP_append]
      omega
    have := h.udp
    split <;> simp_all

private theorem take_succ_modify {α : Type*} (f : α → α) {xs : List α} {i : Nat} (hi : i < xs.length) :
    (xs.modify i f).take (i + 1) = xs.take i ++ [f xs[i]] := by
  rw [List.modify_eq_take_cons_drop hi, List.append_cons]
  exact List.take_left' (by simp only [List.length_append, List.length_take, List.length_singleton]; omega)

theorem live_set (t : Table) (i : Nat) (c : Client) :
    live { t with clients := t.clients.set i c } = t.live.set i c := by
  simp only [live, List.take_set]

theorem Counted.set (h : t.Counted cfg) {i : Nat} {c c' : Client} (hc : t.live[i]? = some c)
    (hflag : c'.udp.flag = c.udp.flag) : Counted cfg { t with clients := t.clients.set i c' } where
  size := by simp only [List.length_set]; exact h.size
  nonneg := h.nonneg
  le_max := h.le_max
  udp := by
    obtain ⟨hi, rfl⟩ := List.getElem?_eq_some_iff.1 hc
    have := List.boole_getElem_le_countP (p := fun c : Client => c.udp.flag) hi
    rw [live_set, udpCount, List.countP_set hi, hflag]
    have := h.udp
    rw [udpCount] at this
    dsimp only
    omega

theorem Counted.lt_max (h : t.Counted cfg) (hroom : t.live.length ≠ cfg.maxClients) :
    t.live.length < t.clients.length := by
  have := h.length_live
  have := h.size
  have := h.le_max
  omega

theorem Counted.live_addClient (h : t.Counted cfg) (hroom : t.live.length ≠ cfg.maxClients) (hd : Int)
    (isUdp : Bool) (addr : IpAddr) (addrStr : List Char) :
    ∃ c : Client, (t.addClient t.live.length hd isUdp addr addrStr).live = t.live ++ [c] ∧ c.hd = hd ∧
      c.addrStr = addrStr ∧ c.udp.flag = isUdp ∧ (isUdp = true → c.udp = ⟨true, 0, addr⟩) := by
  have hlen := h.length_live
  have hlt := h.lt_max hroom
  have hlive : t.live = t.clients.take t.live.length := by rw [← h.toNat_clientsNum, live]
  have hnum : (t.clientsNum + 1).toNat = t.live.length + 1 := by omega
  refine ⟨{ hd, addrStr, udp := if isUdp then ⟨true, 0, addr⟩ else { t.clients[t.live.length].udp with flag := false } },
    ?_, rfl, rfl, ?_, ?_⟩
  · show List.take (t.clientsNum + 1).toNat _ = _
    rw [hnum]
    generalize t.live.length = n at *
    rw [hlive, Table.addClient, take_succ_modify _ hlt]
  · cases isUdp <;> rfl
  · rintro rfl
    rfl

theorem Counted.addClient (h : t.Counted cfg) (hroom : t.live.length ≠ cfg.maxClients) (hd : Int)
    (isUdp : Bool) (addr : IpAddr) (addrStr : List Char) :
    (t.addClient t.live.length hd isUdp addr addrStr).Counted cfg := by
  have := h.length_live
  have := h.le_max
  have hudp := h.udp
  obtain ⟨c, hlive, -, -, hflag, -⟩ := h.live_addClient hroom hd isUdp addr addrStr
  refine ⟨?_, ?_, ?_, ?_⟩
  · simp only [Table.addClient, List.length_modify]
    exact h.size
  · simp only [Table.addClient]
    omega
  · simp only [Table.addClient]
    omega
  · rw [hlive, udpCount, List.countP_append, List.countP_singleton, hflag]
    simp only [Table.addClient]
    cases isUdp <;> simp [hudp, udpCount]

end Table

end Vedruino.Netlog
