import Mathlib.Data.Nat.Basic
import Vedruino.Ip.Recvn

/-!
# Where reads end

How a byte stream is cut into segments shows only in where the reads of it end.
-/

namespace Vedruino.Ip

/-- A read of at most `blk` bytes ends at the offset `n`, or the data end before it. -/
def Conn.CutAt (blk : Nat) : Conn → Nat → Prop
  | [], _ | none :: _, _ => True
  | some bs :: c, n => bs = [] ∨ if bs.length ≤ n then CutAt blk c (n - bs.length) else blk ∣ n

/-- The bytes of each field arrive in one read, as far as there are bytes. -/
def Conn.Fields : List Nat → Conn → Prop
  | [], _ => True
  | n :: ns, c => c.data.length < n ∨ n ≤ c.first.length ∧ Fields ns (c.after n)

/-- The data end with a failing read. -/
def Conn.broken : Conn → Bool
  | [] => false
  | none :: _ => true
  | some bs :: c => if bs = [] then false else Conn.broken c

/-- The connection behind the next `n` bytes. -/
def Conn.skip : Conn → Nat → Conn
  | [], _ => []
  | none :: c, _ => none :: c
  | some bs :: c, n =>
    if n = 0 then some bs :: c
    else if bs.length ≤ n then skip c (n - bs.length)
    else some (bs.drop n) :: c

/-- A buffer into which the next `n` bytes have come, every segment of them to its start. -/
def Conn.overlay : Conn → Nat → List UInt8 → List UInt8
  | [], _, buf | none :: _, _, buf => buf
  | some bs :: c, n, buf =>
    if n = 0 then buf
    else if bs.length ≤ n then overlay c (n - bs.length) (overwrite buf bs)
    else overwrite buf (bs.take n)

variable {c c' : Conn} {n blk : Nat} {bs : List UInt8}

theorem Conn.skip_zero (c : Conn) : c.skip 0 = c := by
  match c with
  | [] | none :: _ => rfl
  | some bs :: c => rw [Conn.skip, if_pos rfl]

private theorem Conn.overlay_zero (c : Conn) (buf : List UInt8) : c.overlay 0 buf = buf := by
  match c with
  | [] | none :: _ => rfl
  | some bs :: c => rw [Conn.overlay, if_pos rfl]

theorem Conn.data_cons (hbs : bs ≠ []) (c : Conn) : Conn.data (some bs :: c) = bs ++ c.data := by
  rw [Conn.data, if_neg hbs]

/-- A connection that still has bytes begins with a segment of some. -/
theorem Conn.exists_of_pos (hpos : 0 < c.data.length) : ∃ bs c', c = some bs :: c' ∧ bs ≠ [] := by
  match c, hpos with
  | [], h | none :: _, h => exact absurd h (Nat.lt_irrefl 0)
  | some bs :: c, h =>
    refine ⟨bs, c, rfl, ?_⟩
    intro hbs
    rw [Conn.data, if_pos hbs] at h
    exact Nat.lt_irrefl 0 h

/-- The next `n` bytes are there, segment by segment. -/
inductive Conn.Has : Conn → Nat → Prop
  | zero (c : Conn) : Has c 0
  | whole {bs : List UInt8} {c : Conn} {n : Nat} (hbs : bs ≠ []) (hle : bs.length ≤ n) (h : Has c (n - bs.length)) :
    Has (some bs :: c) n
  | part {bs : List UInt8} {c : Conn} {n : Nat} (hpos : 0 < n) (hlt : n < bs.length) : Has (some bs :: c) n

theorem Conn.has_of_le (h : n ≤ c.data.length) : c.Has n := by
  induction c generalizing n with
  | nil =>
    obtain rfl := Nat.le_zero.1 h
    exact .zero []
  | cons seg c ih =>
    by_cases hn : n = 0
    · rw [hn]
      exact .zero _
    · obtain ⟨bs, c', hc, hbs⟩ := Conn.exists_of_pos (Nat.lt_of_lt_of_le (Nat.pos_of_ne_zero hn) h)
      obtain ⟨rfl, rfl⟩ := List.cons.inj hc
      rw [Conn.data_cons hbs, List.length_append] at h
      by_cases hle : bs.length ≤ n
      · exact .whole hbs hle (ih (by omega))
      · exact .part (Nat.pos_of_ne_zero hn) (Nat.lt_of_not_le hle)

theorem Conn.data_skip (h : n ≤ c.data.length) : (c.skip n).data = c.data.drop n := by
  replace h := Conn.has_of_le h
  induction h with
  | zero c => rw [Conn.skip_zero, List.drop_zero]
  | @whole bs c n hbs hle _ ih =>
    have hpos : 0 < bs.length := List.length_pos_iff.2 hbs
    rw [Conn.skip, if_neg (by omega), if_pos hle, ih, Conn.data_cons hbs, List.drop_append, List.drop_of_length_le hle,
      List.nil_append]
  | @part bs c n hpos hlt =>
    have hbs : bs ≠ [] := List.ne_nil_of_length_pos (by omega)
    have hdrop : bs.drop n ≠ [] := List.ne_nil_of_length_pos (by rw [List.length_drop]; omega)
    rw [Conn.skip, if_neg (by omega), if_neg (by omega), Conn.data_cons hdrop, Conn.data_cons hbs,
      List.drop_append_of_le_length (Nat.le_of_lt hlt)]

theorem Conn.broken_skip (h : n ≤ c.data.length) : (c.skip n).broken = c.broken := by
  replace h := Conn.has_of_le h
  induction h with
  | zero c => rw [Conn.skip_zero]
  | @whole bs c n hbs hle _ ih =>
    have hpos : 0 < bs.length := List.length_pos_iff.2 hbs
    rw [Conn.skip, if_neg (by omega), if_pos hle, ih, Conn.broken, if_neg hbs]
  | @part bs c n hpos hlt =>
    have hbs : bs ≠ [] := List.ne_nil_of_length_pos (by omega)
    have hdrop : bs.drop n ≠ [] := List.ne_nil_of_length_pos (by rw [List.length_drop]; omega)
    rw [Conn.skip, if_neg (by omega), if_neg (by omega), Conn.broken, if_neg hdrop, Conn.broken, if_neg hbs]

theorem Conn.skip_skip {m : Nat} (h : m ≤ c.data.length) : (c.skip m).skip n = c.skip (m + n) := by
  replace h := Conn.has_of_le h
  induction h with
  | zero c => rw [Conn.skip_zero, Nat.zero_add]
  | @whole bs c m hbs hle _ ih =>
    have hpos : 0 < bs.length := List.length_pos_iff.2 hbs
    rw [Conn.skip, if_neg (by omega), if_pos hle, ih, Conn.skip, if_neg (by omega), if_pos (by omega)]
    congr 1
    omega
  | @part bs c m hpos hlt =>
    rw [Conn.skip, if_neg (by omega), if_neg (by omega), Conn.skip, Conn.skip]
    by_cases hn : n = 0
    · rw [if_pos hn, hn, Nat.add_zero, if_neg (by omega), if_neg (by omega)]
    · rw [if_neg hn, if_neg (by omega : ¬ m + n = 0), List.length_drop, List.drop_drop]
      by_cases hle : bs.length ≤ m + n
      · rw [if_pos (by omega), if_pos hle]
        congr 1
        omega
      · rw [if_neg (by omega), if_neg hle]

theorem recvnLoop_eq (fuel : Nat) (buf : List UInt8) (hfuel : n ≤ fuel) (h : n ≤ c.data.length) :
    recvnLoop fuel n buf c = (true, c.overlay n buf, c.skip n) := by
  replace h := Conn.has_of_le h
  induction h generalizing fuel buf with
  | zero c => rw [recvnLoop_done, Conn.overlay_zero, Conn.skip_zero]
  | @whole bs c n hbs hle _ ih =>
    have hpos : 0 < bs.length := List.length_pos_iff.2 hbs
    obtain ⟨fuel, rfl⟩ : ∃ m, fuel = m + 1 := ⟨fuel - 1, by omega⟩
    rw [recvnLoop, if_neg (by omega), pkTcpRecv, if_pos hle]
    dsimp only
    rw [if_neg (by omega), ih fuel _ (by omega), Conn.overlay, if_neg (by omega), if_pos hle, Conn.skip, if_neg (by omega),
      if_pos hle]
  | @part bs c n hpos hlt =>
    have hlen : (bs.take n).length = n := List.length_take_of_le (Nat.le_of_lt hlt)
    obtain ⟨fuel, rfl⟩ : ∃ m, fuel = m + 1 := ⟨fuel - 1, by omega⟩
    rw [recvnLoop, if_neg (by omega), pkTcpRecv, if_neg (by omega)]
    dsimp only
    rw [if_neg (by omega), hlen, Nat.sub_self, recvnLoop_done, Conn.overlay, if_neg (by omega), if_neg (by omega), Conn.skip,
      if_neg (by omega), if_neg (by omega)]

/-- A call of `pk_tcp_recvn` that finds its bytes, whatever the segments. -/
theorem pkTcpRecvn_eq (buf : List UInt8) (h : n ≤ c.data.length) :
    pkTcpRecvn c buf n = (true, c.overlay n buf, c.skip n) := recvnLoop_eq n buf (Nat.le_refl n) h

theorem pkTcpRecvn_short (buf : List UInt8) (h : c.data.length < n) : (pkTcpRecvn c buf n).1 = false := by
  rw [← Bool.not_eq_true, pkTcpRecvn, (recvnLoop_spec n n (Nat.le_refl n) buf c).1]
  omega

/-- What a field that comes in one read leaves. -/
theorem Conn.overlay_skip_of_le_first (buf : List UInt8) (hn : 0 < n) (hfirst : n ≤ c.first.length) :
    c.overlay n buf = overwrite buf (c.data.take n) ∧ c.skip n = c.after n := by
  have hrecvn := pkTcpRecvn_eq buf (Nat.le_trans hfirst (length_first_le c))
  rw [pkTcpRecvn_of_le_first hn hfirst, Prod.mk.injEq, Prod.mk.injEq] at hrecvn
  exact ⟨hrecvn.2.1.symm, hrecvn.2.2.symm⟩

theorem Conn.after_eq_skip (hn : 0 < n) (hfirst : n ≤ c.first.length) : c.after n = c.skip n :=
  (Conn.overlay_skip_of_le_first [] hn hfirst).2.symm

theorem Conn.overlay_of_le_first {buf : List UInt8} (hbuf : buf.length = n) (hn : 0 < n) (hfirst : n ≤ c.first.length) :
    c.overlay n buf = c.data.take n := by
  have hlen : (c.data.take n).length = n := List.length_take_of_le (Nat.le_trans hfirst (length_first_le c))
  rw [(Conn.overlay_skip_of_le_first buf hn hfirst).1, overwrite, List.drop_eq_nil_of_le (by omega), List.append_nil]

theorem Conn.cutAt_zero (blk : Nat) (c : Conn) : c.CutAt blk 0 := by
  match c with
  | [] | none :: _ => trivial
  | some bs :: c =>
    by_cases hbs : bs = []
    · exact .inl hbs
    · have hpos : 0 < bs.length := List.length_pos_iff.2 hbs
      refine .inr ?_
      rw [if_neg (by omega)]
      exact Nat.dvd_zero blk

theorem pkTcpRecv_cases (hbs : bs ≠ []) (h : pkTcpRecv c blk = (some bs, c')) :
    c = some bs :: c' ∧ bs.length ≤ blk ∨
      ∃ rest c₀, rest ≠ [] ∧ bs.length = blk ∧ c = some (bs ++ rest) :: c₀ ∧ c' = some rest :: c₀ := by
  match c, h with
  | [], h =>
    cases h
    exact absurd rfl hbs
  | some xs :: c, h =>
    rw [pkTcpRecv] at h
    split at h
    · next hle =>
      cases h
      exact .inl ⟨rfl, hle⟩
    · next hlt =>
      cases h
      refine .inr ⟨xs.drop blk, c, List.ne_nil_of_length_pos ?_, List.length_take_of_le (by omega), ?_, rfl⟩
      · rw [List.length_drop]
        omega
      · rw [List.take_append_drop]

/-- A read that returns bytes keeps to the cut or goes past it. -/
theorem Conn.cutAt_iff (hn : 0 < n) (hbs : bs ≠ []) (h : pkTcpRecv c blk = (some bs, c')) :
    c.CutAt blk n ↔ bs.length ≤ n ∧ c'.CutAt blk (n - bs.length) := by
  have hpos : 0 < bs.length := List.length_pos_iff.2 hbs
  rcases pkTcpRecv_cases hbs h with ⟨rfl, hle⟩ | ⟨rest, c₀, hrest, hlen, rfl, rfl⟩
  · rw [Conn.CutAt, or_iff_right hbs]
    by_cases hfit : bs.length ≤ n
    · rw [if_pos hfit, and_iff_right hfit]
    · rw [if_neg hfit]
      exact ⟨fun hdvd => absurd (Nat.le_of_dvd hn hdvd) (by omega), fun h => absurd h.1 hfit⟩
  · have hrpos : 0 < rest.length := List.length_pos_iff.2 hrest
    rw [Conn.CutAt, Conn.CutAt, or_iff_right (by simp [hbs]), or_iff_right hrest, List.length_append]
    by_cases hfit : bs.length + rest.length ≤ n
    · rw [if_pos hfit, if_pos (by omega), Nat.sub_sub, and_iff_right (by omega)]
    · rw [if_neg hfit]
      by_cases hblk : bs.length ≤ n
      · rw [if_neg (by omega), and_iff_right hblk, hlen]
        exact (Nat.dvd_sub_iff_left (by omega) (Nat.dvd_refl blk)).symm
      · exact ⟨fun hdvd => absurd (Nat.le_of_dvd hn hdvd) (by omega), fun h => absurd h.1 hblk⟩

theorem Conn.cutAt_of_data (h : c.data = []) : c.CutAt blk n := by
  match c, h with
  | [], _ | none :: _, _ => trivial
  | some bs :: c, h =>
    rw [Conn.data] at h
    split at h
    · next hbs => exact .inl hbs
    · next hbs => exact absurd (List.append_eq_nil_iff.1 h).1 hbs

theorem broken_of_pkTcpRecv_none (h : pkTcpRecv c blk = (none, c')) : c.broken = true := by
  rw [eq_of_pkTcpRecv_none h, Conn.broken]

theorem not_broken_of_pkTcpRecv_nil (hblk : 0 < blk) (h : pkTcpRecv c blk = (some [], c')) : c.broken = false := by
  match c, h with
  | [], _ => rfl
  | some bs :: c, h =>
    rw [pkTcpRecv] at h
    split at h
    · cases h
      rfl
    · next hlt =>
      rw [Prod.mk.injEq, Option.some_inj, List.take_eq_nil_iff] at h
      rcases h.1 with hzero | hbs
      · omega
      · rw [hbs, List.length_nil] at hlt
        omega

theorem broken_of_pkTcpRecv (hbs : bs ≠ []) (h : pkTcpRecv c blk = (some bs, c')) : c.broken = c'.broken := by
  rcases pkTcpRecv_cases hbs h with ⟨rfl, -⟩ | ⟨rest, c₀, hrest, -, rfl, rfl⟩
  · rw [Conn.broken, if_neg hbs]
  · rw [Conn.broken, Conn.broken, if_neg (by simp [hbs]), if_neg hrest]

end Vedruino.Ip
