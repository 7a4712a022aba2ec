import Vedruino.Ip.Tcp

/-!
# Receiving exactly n bytes

Whatever the reads return, `pk_tcp_recvn` takes the right bytes off the stream and says rightly whether there were enough. It writes every read to the start of the buffer, so the bytes are in place only where one read returns them all.
-/

namespace Vedruino.Ip

/-- What `pk_tcp_recvn` promises for the reads of a connection, whatever the buffer holds before. -/
def RecvnCorrect (c : Conn) (n : Nat) : Prop :=
  ∀ buf : List UInt8, n ≤ buf.length →
    ((pkTcpRecvn c buf n).1 = true ↔ n ≤ c.data.length) ∧
      ((pkTcpRecvn c buf n).1 = true →
        (pkTcpRecvn c buf n).2.1.take n = c.data.take n ∧ (pkTcpRecvn c buf n).2.2.data = c.data.drop n)

/-- The bytes of the first segment. -/
def Conn.first : Conn → List UInt8
  | [] | none :: _ => []
  | some bs :: _ => bs

/-- The connection after a read of at most `n` bytes. -/
def Conn.after (c : Conn) (n : Nat) : Conn := (pkTcpRecv c n).2

variable {c c' : Conn} {n left : Nat} {buf bs : List UInt8}

theorem getElem?_overwrite_of_le {i : Nat} (hi : bs.length ≤ i) : (overwrite buf bs)[i]? = buf[i]? := by
  rw [overwrite, List.getElem?_append_right hi, List.getElem?_drop, Nat.add_sub_cancel' hi]

/-- The loop ends well exactly when enough bytes are left, and then it takes just these. -/
theorem recvnLoop_spec (fuel left : Nat) (hfuel : left ≤ fuel) (buf : List UInt8) (c : Conn) :
    ((recvnLoop fuel left buf c).1 = true ↔ left ≤ c.data.length) ∧
      ((recvnLoop fuel left buf c).1 = true → (recvnLoop fuel left buf c).2.2.data = c.data.drop left) := by
  induction fuel generalizing left buf c with
  | zero =>
    obtain rfl : left = 0 := by omega
    exact ⟨⟨fun _ => Nat.zero_le _, fun _ => rfl⟩, fun _ => rfl⟩
  | succ fuel ih =>
    rw [recvnLoop]
    by_cases hleft : left = 0
    · rw [if_pos hleft, hleft]
      exact ⟨⟨fun _ => Nat.zero_le _, fun _ => rfl⟩, fun _ => rfl⟩
    · rw [if_neg hleft]
      rcases hrecv : pkTcpRecv c left with ⟨_ | bs, c'⟩
      · dsimp only
        rw [data_of_pkTcpRecv_none hrecv, List.length_nil]
        exact ⟨⟨fun h => Bool.noConfusion h, fun h => absurd h (by omega)⟩, fun h => Bool.noConfusion h⟩
      · have hdata := data_of_pkTcpRecv_some (Nat.pos_of_ne_zero hleft) hrecv
        have hlen := length_of_pkTcpRecv hrecv
        dsimp only
        by_cases hbs : bs.length = 0
        · rw [if_pos hbs, hdata, if_pos (List.eq_nil_of_length_eq_zero hbs), List.length_nil]
          exact ⟨⟨fun h => Bool.noConfusion h, fun h => absurd h (by omega)⟩, fun h => Bool.noConfusion h⟩
        · obtain ⟨hend, hrest⟩ := ih (left - bs.length) (by omega) (overwrite buf bs) c'
          rw [if_neg hbs, hdata, if_neg (fun h => hbs (by rw [h]; rfl)), List.length_append]
          refine ⟨hend.trans (by omega), ?_⟩
          intro h
          rw [hrest h, List.drop_append, List.drop_eq_nil_of_le hlen, List.nil_append]

/-- No read reaches the bytes at `left` and behind it. -/
theorem getElem?_recvnLoop (fuel left : Nat) (buf : List UInt8) (c : Conn) {i : Nat} (hi : left ≤ i) :
    (recvnLoop fuel left buf c).2.1[i]? = buf[i]? := by
  induction fuel generalizing left buf c with
  | zero => rfl
  | succ fuel ih =>
    rw [recvnLoop]
    by_cases hleft : left = 0
    · rw [if_pos hleft]
    · rw [if_neg hleft]
      rcases hrecv : pkTcpRecv c left with ⟨_ | bs, c'⟩
      · rfl
      · have hlen := length_of_pkTcpRecv hrecv
        dsimp only
        by_cases hbs : bs.length = 0
        · rw [if_pos hbs]
        · rw [if_neg hbs, ih (left - bs.length) (overwrite buf bs) c' (by omega)]
          exact getElem?_overwrite_of_le (by omega)

private theorem pkTcpRecv_of_le_first (hn : 0 < n) (hfirst : n ≤ c.first.length) :
    ∃ c', pkTcpRecv c n = (some (c.data.take n), c') := by
  match c, hfirst with
  | [], hfirst | none :: _, hfirst =>
    rw [Conn.first, List.length_nil] at hfirst
    omega
  | some bs :: c, hfirst =>
    rw [Conn.first] at hfirst
    have hbs : bs ≠ [] := List.ne_nil_of_length_pos (by omega)
    rw [pkTcpRecv, Conn.data, if_neg hbs, List.take_append_of_le_length hfirst]
    by_cases hle : bs.length ≤ n
    · rw [if_pos hle, List.take_of_length_le hle]
      exact ⟨_, rfl⟩
    · rw [if_neg hle]
      exact ⟨_, rfl⟩

theorem length_first_le (c : Conn) : c.first.length ≤ c.data.length := by
  match c with
  | [] | none :: _ => exact Nat.le_refl _
  | some bs :: c =>
    rw [Conn.first, Conn.data]
    split
    · next hbs => exact Nat.le_of_eq (congrArg List.length hbs)
    · rw [List.length_append]
      omega

theorem pkTcpRecvn_of_le_first (hn : 0 < n) (hfirst : n ≤ c.first.length) :
    pkTcpRecvn c buf n = (true, overwrite buf (c.data.take n), c.after n) := by
  obtain ⟨m, rfl⟩ : ∃ m, n = m + 1 := ⟨n - 1, by omega⟩
  obtain ⟨c', hrecv⟩ := pkTcpRecv_of_le_first hn hfirst
  have hlen : (c.data.take (m + 1)).length = m + 1 :=
    List.length_take_of_le (Nat.le_trans hfirst (length_first_le c))
  have hne : (c.data.take (m + 1)).length ≠ 0 := by omega
  rw [pkTcpRecvn, recvnLoop, if_neg (Nat.succ_ne_zero m), Conn.after, hrecv]
  dsimp only
  rw [if_neg hne, hlen, Nat.sub_self, recvnLoop_done]

/-- When a second read is needed, the last byte of the buffer keeps what it held before the call. -/
theorem getElem?_pkTcpRecvn_last (hfirst : c.first.length < n) :
    (pkTcpRecvn c buf n).2.1[n - 1]? = buf[n - 1]? := by
  obtain ⟨m, rfl⟩ : ∃ m, n = m + 1 := ⟨n - 1, by omega⟩
  rw [pkTcpRecvn, recvnLoop, if_neg (Nat.succ_ne_zero m)]
  rcases hrecv : pkTcpRecv c (m + 1) with ⟨_ | bs, c'⟩
  · rfl
  · have hbs : bs.length ≤ m := by
      rcases c with _ | ⟨_ | xs, c⟩
      · cases hrecv
        exact Nat.zero_le _
      · cases hrecv
      · rw [Conn.first] at hfirst
        rw [pkTcpRecv, if_pos (by omega)] at hrecv
        cases hrecv
        omega
    dsimp only
    split
    · rfl
    · next hpos =>
      rw [getElem?_recvnLoop _ _ _ _ (by omega : m + 1 - bs.length ≤ m + 1 - 1)]
      exact getElem?_overwrite_of_le (by omega)

/-- **`pk_tcp_recvn` is right exactly where too few bytes arrive or the first read returns them all.** -/
theorem recvnCorrect_iff (c : Conn) (n : Nat) : RecvnCorrect c n ↔ c.data.length < n ∨ n ≤ c.first.length := by
  constructor
  · intro h
    by_contra hfail
    rw [not_or, Nat.not_lt, Nat.not_le] at hfail
    obtain ⟨hdata, hfirst⟩ := hfail
    have hlt : n - 1 < c.data.length := by omega
    -- a buffer that does not end in the right byte already
    let buf := List.replicate n (c.data[n - 1] + 1)
    obtain ⟨hend, hbytes⟩ := h buf (Nat.le_of_eq List.length_replicate.symm)
    have hlast := congrArg (·[n - 1]?) (hbytes (hend.2 hdata)).1
    rw [List.getElem?_take_of_lt (by omega), List.getElem?_take_of_lt (by omega), getElem?_pkTcpRecvn_last hfirst,
      List.getElem?_eq_getElem hlt, List.getElem?_replicate_of_lt (by omega), Option.some_inj] at hlast
    have hmod := congrArg UInt8.toNat hlast
    rw [UInt8.toNat_add, show (1 : UInt8).toNat = 1 from rfl] at hmod
    omega
  · intro h buf _
    obtain ⟨hend, hrest⟩ := recvnLoop_spec n n (Nat.le_refl n) buf c
    refine ⟨hend, fun htrue => ⟨?_, hrest htrue⟩⟩
    have hdata := hend.1 htrue
    rcases h with hshort | hfirst
    · omega
    · by_cases hn : n = 0
      · rw [hn, List.take_zero, List.take_zero]
      · rw [pkTcpRecvn_of_le_first (Nat.pos_of_ne_zero hn) hfirst]
        exact List.take_left' (List.length_take_of_le hdata)

theorem not_recvnCorrect_twoReads : ¬ RecvnCorrect [some [0x61], some [0x62]] 2 := by
  intro h
  have hbytes := ((h [0, 0] (by decide)).2 rfl).1
  revert hbytes
  decide

end Vedruino.Ip
