import Mathlib.Data.List.GetD
import Mathlib.Data.Nat.Basic

/-!
# Flash partitions

A partition is an array of bytes that is erased block by block and written in any range. `Partition` is any device with these operations that keeps to its ranges: each of them may fail, and a write that fails may already have changed some bytes of its range. On a `NorPartition` a write that succeeds clears exactly the bits that are zero in the data, so erased bytes take the values written.
-/

namespace Vedruino

abbrev Image := Nat → UInt8

def Erased (m : Image) (lo hi : Nat) : Prop := ∀ i, lo ≤ i → i < hi → m i = 0xff

/-- The bytes of a range. -/
def Image.bytes (m : Image) (off n : Nat) : List UInt8 := (List.range n).map fun i => m (off + i)

@[simp] theorem Image.length_bytes (m : Image) (off n : Nat) : (m.bytes off n).length = n := by
  rw [Image.bytes, List.length_map, List.length_range]

theorem Image.getElem_bytes (m : Image) (off n : Nat) {i : Nat} (h : i < (m.bytes off n).length) :
    (m.bytes off n)[i] = m (off + i) := by
  simp only [Image.bytes, List.getElem_map, List.getElem_range]

theorem Image.bytes_add (m : Image) (off n k : Nat) : m.bytes off (n + k) = m.bytes off n ++ m.bytes (off + n) k := by
  rw [Image.bytes, List.range_add, List.map_append, List.map_map]
  refine congrArg _ (List.map_congr_left fun i _ => ?_)
  rw [Function.comp_apply, Nat.add_assoc]

theorem Image.bytes_congr {m m' : Image} {off n : Nat} (h : ∀ i, off ≤ i → i < off + n → m' i = m i) :
    m'.bytes off n = m.bytes off n := by
  refine List.map_congr_left fun i hi => h _ (Nat.le_add_right _ _) ?_
  rw [List.mem_range] at hi
  omega

/-- A partition of `size` bytes with blocks of `blk` bytes. Writing and erasing give the image afterwards and whether they succeeded. -/
structure Partition (size blk : Nat) where
  write : Image → Nat → List UInt8 → Image × Bool
  erase : Image → Nat → Nat → Image × Bool
  read : Image → Nat → Nat → Option (List UInt8)
  write_refused : ∀ m off bs, size < off + bs.length → write m off bs = (m, false)
  write_frame : ∀ m off bs i, i < off ∨ off + bs.length ≤ i → (write m off bs).1 i = m i
  erase_erased : ∀ m off n, blk ∣ off → blk ∣ n → off + n ≤ size → (erase m off n).2 = true →
    Erased (erase m off n).1 off (off + n)
  erase_frame : ∀ m off n i, blk ∣ off → blk ∣ n → i < off ∨ off + n ≤ i → (erase m off n).2 = true →
    (erase m off n).1 i = m i
  read_bytes : ∀ m off n bs, off + n ≤ size → read m off n = some bs → bs = m.bytes off n

/-- A partition on NOR flash. -/
structure NorPartition (size blk : Nat) extends Partition size blk where
  write_bytes : ∀ m off bs i (h : i < bs.length), (write m off bs).2 = true →
    (write m off bs).1 (off + i) = m (off + i) &&& bs[i]

namespace Erased

variable {m m' : Image} {lo mid hi : Nat}

theorem mono {lo' hi' : Nat} (h : Erased m lo hi) (hlo : lo ≤ lo') (hhi : hi' ≤ hi) : Erased m lo' hi' :=
  fun i hi₁ hi₂ => h i (by omega) (by omega)

theorem congr (h : Erased m lo hi) (hm : ∀ i, lo ≤ i → i < hi → m' i = m i) : Erased m' lo hi :=
  fun i hi₁ hi₂ => (hm i hi₁ hi₂).trans (h i hi₁ hi₂)

theorem trans (h₁ : Erased m lo mid) (h₂ : Erased m mid hi) : Erased m lo hi := by
  intro i hlo hhi
  by_cases hi : i < mid
  · exact h₁ i hlo hi
  · exact h₂ i (by omega) hhi

theorem of_bytes {off n : Nat} (h : ∀ b ∈ m.bytes off n, b = 0xff) : Erased m off (off + n) := by
  intro i hlo hhi
  refine h (m i) (List.mem_map.2 ⟨i - off, List.mem_range.2 (by omega), ?_⟩)
  rw [Nat.add_sub_cancel' hlo]

end Erased

namespace Partition

variable {size blk : Nat} (P : Partition size blk) {m : Image}

theorem erased_write {off hi : Nat} {bs : List UInt8} {lo : Nat} (h : Erased m lo hi) (hlo : off + bs.length ≤ lo) :
    Erased (P.write m off bs).1 lo hi :=
  h.congr fun i hi₁ _ => P.write_frame m off bs i (by omega)

theorem erased_erase {n lo : Nat} (h : Erased m lo size) (hlo : lo ≤ n) (hblk : blk ∣ n) (hn : n ≤ size)
    (hok : (P.erase m 0 n).2 = true) : Erased (P.erase m 0 n).1 0 size := by
  have hfirst := P.erase_erased m 0 n (Nat.dvd_zero blk) hblk (by omega) hok
  rw [Nat.zero_add] at hfirst
  refine hfirst.trans ((h.mono hlo le_rfl).congr fun i hi _ => ?_)
  exact P.erase_frame m 0 n i (Nat.dvd_zero blk) hblk (by omega) hok

end Partition

/-- The image after the bits that are zero in the bytes have been cleared. -/
def Image.clear (m : Image) (off : Nat) (bs : List UInt8) : Image :=
  fun i => if off ≤ i ∧ i < off + bs.length then m i &&& bs.getD (i - off) 0 else m i

theorem Image.clear_nil (m : Image) (off : Nat) : m.clear off [] = m := by
  funext i
  rw [Image.clear, List.length_nil, if_neg (by omega)]

theorem Image.clear_append (m : Image) (off : Nat) (xs ys : List UInt8) :
    m.clear off (xs ++ ys) = (m.clear off xs).clear (off + xs.length) ys := by
  funext i
  simp only [Image.clear, List.length_append]
  by_cases hys : off + xs.length ≤ i ∧ i < off + xs.length + ys.length
  · rw [if_pos hys, if_pos (by omega), if_neg (by omega), List.getD_append_right _ _ _ _ (by omega), Nat.sub_add_eq]
  · rw [if_neg hys]
    by_cases hxs : off ≤ i ∧ i < off + xs.length
    · rw [if_pos hxs, if_pos (by omega), List.getD_append _ _ _ _ (by omega)]
    · rw [if_neg hxs, if_neg (by omega)]

/-- No write in range fails. -/
def Partition.Reliable {size blk : Nat} (P : Partition size blk) : Prop :=
  ∀ m off bs, off + bs.length ≤ size → (P.write m off bs).2 = true

theorem NorPartition.write_eq_clear {size blk : Nat} (P : NorPartition size blk) {m : Image} {off : Nat}
    {bs : List UInt8} (hok : (P.write m off bs).2 = true) : (P.write m off bs).1 = m.clear off bs := by
  funext i
  rw [Image.clear]
  by_cases hi : off ≤ i ∧ i < off + bs.length
  · obtain ⟨j, rfl⟩ := Nat.exists_eq_add_of_le hi.1
    have hj : j < bs.length := by omega
    rw [if_pos hi, P.write_bytes m off bs j hj hok, Nat.add_sub_cancel_left, List.getD_eq_getElem _ _ hj]
  · rw [if_neg hi]
    exact P.write_frame m off bs i (by omega)

theorem NorPartition.bytes_write {size blk : Nat} (P : NorPartition size blk) {m : Image} {off : Nat}
    {bs : List UInt8} (h : Erased m off size) (hok : (P.write m off bs).2 = true) :
    (P.write m off bs).1.bytes off bs.length = bs := by
  have hin : off + bs.length ≤ size := by
    by_contra hlt
    rw [P.write_refused m off bs (by omega)] at hok
    cases hok
  apply List.ext_getElem
  · rw [Image.length_bytes]
  · intro i _ hi
    rw [Image.getElem_bytes, P.write_bytes m off bs i hi hok, h (off + i) (by omega) (by omega)]
    exact UInt8.neg_one_and

/-- The simplest device: nothing fails that is in range. -/
def plainPartition (size blk : Nat) : NorPartition size blk where
  write m off bs :=
    if size < off + bs.length then (m, false)
    else (fun i => if off ≤ i ∧ i < off + bs.length then m i &&& bs.getD (i - off) 0 else m i, true)
  erase m off n := (fun i => if off ≤ i ∧ i < off + n then 0xff else m i, true)
  read m off n := some (m.bytes off n)
  write_refused m off bs h := if_pos h
  write_frame m off bs i h := by
    split
    · rfl
    · exact if_neg (by omega)
  erase_erased m off n _ _ _ _ i hlo hhi := if_pos ⟨hlo, hhi⟩
  erase_frame m off n i _ _ h _ := if_neg (by omega)
  read_bytes m off n bs _ h := (Option.some.inj h).symm
  write_bytes m off bs i h hok := by
    by_cases hsize : size < off + bs.length
    · rw [if_pos hsize] at hok
      cases hok
    · rw [if_neg hsize]
      dsimp only
      rw [if_pos (by omega), Nat.add_sub_cancel_left, List.getD_eq_getElem?_getD,
        List.getElem?_eq_getElem h, Option.getD_some]

theorem plainPartition_write {size : Nat} (blk : Nat) (m : Image) {off : Nat} {bs : List UInt8}
    (h : off + bs.length ≤ size) : ((plainPartition size blk).write m off bs).2 = true := by
  show (if size < off + bs.length then _ else _ : Image × Bool).2 = true
  rw [if_neg (by omega)]

theorem plainPartition_reliable (size blk : Nat) : (plainPartition size blk).toPartition.Reliable :=
  fun m _ _ h => plainPartition_write blk m h

end Vedruino
