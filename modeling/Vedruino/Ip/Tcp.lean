import Mathlib.Data.List.Basic

/-!
# Receiving over TCP

A connection is what the reads of its socket find, one after another: the bytes of a segment or an error. A read takes at most the bytes it asks for and leaves the rest of the segment to the next one. When nothing is left it returns no bytes, as at the end of a stream.
-/

namespace Vedruino.Ip

/-- The segments still to be read; `none` is a failing `read`. -/
abbrev Conn := List (Option (List UInt8))

/-- `pk_tcp_recv`; the result `none` is `PK_SOCKERR`. -/
def pkTcpRecv : Conn → Nat → Option (List UInt8) × Conn
  | [], _ => (some [], [])
  | none :: c, _ => (none, c)
  | some bs :: c, maxN =>
    if bs.length ≤ maxN then (some bs, c) else (some (bs.take maxN), some (bs.drop maxN) :: c)

/-- The bytes that reads find before the first error or the end of the stream. -/
def Conn.data : Conn → List UInt8
  | [] | none :: _ => []
  | some bs :: c => if bs = [] then [] else bs ++ Conn.data c

def overwrite (buf bs : List UInt8) : List UInt8 := bs ++ buf.drop bs.length

/-- The loop of `pk_tcp_recvn` with so many bytes still to come. Every read but the last returns at least one. -/
def recvnLoop : Nat → Nat → List UInt8 → Conn → Bool × List UInt8 × Conn
  | 0, left, buf, c => (left = 0, buf, c)
  | fuel + 1, left, buf, c =>
    if left = 0 then (true, buf, c)
    else
      match pkTcpRecv c left with
      | (none, c') => (false, buf, c')
      | (some bs, c') =>
        -- the next read starts at `buf` again, not behind the bytes received
        if bs.length = 0 then (false, buf, c') else recvnLoop fuel (left - bs.length) (overwrite buf bs) c'

/-- `pk_tcp_recvn`: its result, the buffer and the connection afterwards. -/
def pkTcpRecvn (c : Conn) (buf : List UInt8) (n : Nat) : Bool × List UInt8 × Conn := recvnLoop n n buf c

private theorem pkTcpRecv_append (xs ys : List UInt8) (c : Conn) :
    pkTcpRecv (some (xs ++ ys) :: c) xs.length = (some xs, if ys = [] then c else some ys :: c) := by
  rw [pkTcpRecv]
  by_cases hys : ys = []
  · rw [hys, List.append_nil, if_pos (Nat.le_refl _), if_pos rfl]
  · have hpos : 0 < ys.length := List.length_pos_iff.2 hys
    rw [List.length_append, if_neg (by omega), if_neg hys, List.take_left, List.drop_left]

theorem eq_of_pkTcpRecv_none {c c' : Conn} {n : Nat} (h : pkTcpRecv c n = (none, c')) : c = none :: c' := by
  match c, h with
  | none :: c, h =>
    cases h
    rfl
  | some bs :: c, h =>
    rw [pkTcpRecv] at h
    split at h <;> cases h

theorem data_of_pkTcpRecv_none {c c' : Conn} {n : Nat} (h : pkTcpRecv c n = (none, c')) : c.data = [] := by
  rw [eq_of_pkTcpRecv_none h, Conn.data]

theorem data_of_pkTcpRecv_some {c c' : Conn} {n : Nat} {bs : List UInt8} (hn : 0 < n)
    (h : pkTcpRecv c n = (some bs, c')) : c.data = if bs = [] then [] else bs ++ c'.data := by
  match c, h with
  | [], h =>
    cases h
    rfl
  | some xs :: c, h =>
    rw [pkTcpRecv] at h
    split at h
    · cases h
      rfl
    · next hlen =>
      cases h
      have hxs : xs ≠ [] := List.ne_nil_of_length_pos (by omega)
      have htake : xs.take n ≠ [] := List.ne_nil_of_length_pos (by rw [List.length_take]; omega)
      have hdrop : xs.drop n ≠ [] := List.ne_nil_of_length_pos (by rw [List.length_drop]; omega)
      rw [Conn.data, Conn.data, if_neg hxs, if_neg htake, if_neg hdrop, ← List.append_assoc, List.take_append_drop]

theorem length_of_pkTcpRecv {c c' : Conn} {n : Nat} {bs : List UInt8} (h : pkTcpRecv c n = (some bs, c')) :
    bs.length ≤ n := by
  match c, h with
  | [], h =>
    cases h
    exact Nat.zero_le _
  | some xs :: c, h =>
    rw [pkTcpRecv] at h
    split at h
    · next hlen =>
      cases h
      exact hlen
    · cases h
      exact List.length_take_le _ _

theorem recvnLoop_done (fuel : Nat) (buf : List UInt8) (c : Conn) : recvnLoop fuel 0 buf c = (true, buf, c) := by
  cases fuel <;> rfl

theorem pkTcpRecvn_append (xs : List UInt8) {buf : List UInt8} (hxs : xs ≠ []) (hbuf : buf.length = xs.length) (ys : List UInt8)
    (c : Conn) :
    pkTcpRecvn (some (xs ++ ys) :: c) buf xs.length = (true, xs, if ys = [] then c else some ys :: c) := by
  have hpos : 0 < xs.length := List.length_pos_iff.2 hxs
  have hover : overwrite buf xs = xs := by
    rw [overwrite, List.drop_eq_nil_of_le (by omega), List.append_nil]
  obtain ⟨m, hm⟩ : ∃ m, xs.length = m + 1 := ⟨xs.length - 1, by omega⟩
  have hrecv := pkTcpRecv_append xs ys c
  rw [hm] at hrecv
  rw [pkTcpRecvn, hm, recvnLoop, if_neg (by omega), hrecv]
  dsimp only
  rw [if_neg (by omega), hover, hm, Nat.sub_self, recvnLoop_done]

def ascii (cs : List Char) : List UInt8 := cs.map fun c => UInt8.ofNat c.toNat

def htons (port : BitVec 16) : List UInt8 :=
  [UInt8.ofBitVec ((port >>> 8).setWidth 8), UInt8.ofBitVec (port.setWidth 8)]

def ntohs (bs : List UInt8) : BitVec 16 := (bs.getD 0 0).toBitVec ++ (bs.getD 1 0).toBitVec

theorem ntohs_htons (port : BitVec 16) : ntohs (htons port) = port := by
  show (port >>> 8).setWidth 8 ++ port.setWidth 8 = port
  apply BitVec.eq_of_toNat_eq
  rw [BitVec.toNat_append, BitVec.toNat_setWidth, BitVec.toNat_setWidth, BitVec.toNat_ushiftRight,
    Nat.shiftRight_eq_div_pow, ← Nat.shiftLeft_add_eq_or_of_lt (Nat.mod_lt _ (by decide)), Nat.shiftLeft_eq]
  omega

end Vedruino.Ip
