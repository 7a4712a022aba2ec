import Vedruino.Ota.Clean

/-!
# The image is the firmware sent

The bytes written so far and the bytes that the connection still has to give are together the data sent. The loop ends without error only when at least as many bytes as announced are written, so the partition begins with them.
-/

namespace Vedruino.Ota

open Ip

variable {size : Nat}

/-- The bytes before `part_bytes_written` are the first bytes of the data, the bytes behind it are erased, and no write has failed. -/
structure Recv.Follows (size : Nat) (data : List UInt8) (s : Recv) : Prop where
  data : s.image.bytes 0 s.partBytesWritten ++ s.conn.data = data
  erased : Erased s.image s.partBytesWritten size
  writes : ∀ w ∈ s.writes, w.ok = true

theorem recvLoop_follows (part : NorPartition size firmwareBlkSize) (data : List UInt8) (headerSize fuel : Nat) {s : Recv}
    (h : s.Follows size data) (hfuel : headerSize ≤ s.partBytesWritten + fuel)
    (hend : (recvLoop part.toPartition headerSize fuel s).1 = none) :
    (recvLoop part.toPartition headerSize fuel s).2.Follows size data ∧
      headerSize ≤ (recvLoop part.toPartition headerSize fuel s).2.partBytesWritten := by
  induction fuel generalizing s with
  | zero => exact ⟨h, hfuel⟩
  | succ fuel ih =>
    rw [recvLoop] at hend ⊢
    by_cases hlt : s.partBytesWritten < headerSize
    · rw [if_pos hlt] at hend ⊢
      rcases hrecv : pkTcpRecv s.conn firmwareBufSize with ⟨_ | bs, c⟩
      · rw [hrecv] at hend
        cases hend
      · rw [hrecv] at hend
        dsimp only at hend ⊢
        by_cases hbs : bs.length = 0
        · rw [if_pos hbs] at hend
          cases hend
        · rw [if_neg hbs] at hend ⊢
          by_cases hok : (part.write s.image s.partBytesWritten bs).2 = true
          · rw [if_pos hok] at hend ⊢
            refine ih ⟨?_, ?_, ?_⟩ (by dsimp only; omega) hend
            · have hdata := data_of_pkTcpRecv_some (by decide) hrecv
              rw [if_neg (by rintro rfl; exact hbs rfl)] at hdata
              have hold : (part.write s.image s.partBytesWritten bs).1.bytes 0 s.partBytesWritten =
                  s.image.bytes 0 s.partBytesWritten :=
                Image.bytes_congr fun i _ hi => part.write_frame _ _ _ _ (by omega)
              dsimp only
              rw [Image.bytes_add, hold, Nat.zero_add, part.bytes_write h.erased hok, List.append_assoc, ← hdata, h.data]
            · exact part.erased_write (h.erased.mono (Nat.le_add_right _ _) le_rfl) le_rfl
            · intro w hw
              rcases List.mem_append.1 hw with hw | hw
              · exact h.writes w hw
              · rw [List.mem_singleton.1 hw]
                exact hok
          · rw [if_neg hok] at hend
            cases hend
    · rw [if_neg hlt]
      exact ⟨h, Nat.le_of_not_lt hlt⟩

private theorem recvLoop_error (part : UpdPart size) (headerSize fuel : Nat) (s : Recv) :
    (recvLoop part headerSize fuel s).1 ≠ some .ok := by
  induction fuel generalizing s with
  | zero => exact fun h => by cases h
  | succ fuel ih =>
    rw [recvLoop]
    split
    · split
      · exact fun h => by cases h
      · split
        · exact fun h => by cases h
        · dsimp only
          split
          · exact ih _
          · exact fun h => by cases h
    · exact fun h => by cases h

/-- `part_bytes_written` stays below the announced size and one buffer. A partition of whole blocks that a `size_t` can count has room for that, so the counter never wraps. -/
theorem recvLoop_lt (part : UpdPart size) (headerSize fuel : Nat) {s : Recv}
    (h : s.partBytesWritten < headerSize + firmwareBufSize) :
    (recvLoop part headerSize fuel s).2.partBytesWritten < headerSize + firmwareBufSize := by
  induction fuel generalizing s with
  | zero => exact h
  | succ fuel ih =>
    rw [recvLoop]
    split
    · next hlt =>
      split
      · exact h
      · next bs c hrecv =>
        have hlen := length_of_pkTcpRecv hrecv
        split
        · exact h
        · dsimp only
          split
          · exact ih (by dsimp only; omega)
          · dsimp only
            omega
    · exact h

/-- **The partition holds the firmware sent, or the request fails.** -/
theorem image_fidelity (part : NorPartition size firmwareBlkSize) (verifyMd5 : Bool) (md5 : List UInt8 → List UInt8)
    (env : ReqEnv size) (hpart : env.part = part.toPartition) (d : Dev) (herased : Erased d.image 0 size)
    (h : Header) (c : Conn) (hheader : recvHeader size d.header env.conn = (none, h, c)) :
    (env.malloc = true → (recvLoop env.part (leNat h.size) (leNat h.size) ⟨d.image, 0, c, []⟩).1 = none →
        leNat h.size ≤ c.data.length ∧
          (handleReq verifyMd5 md5 env d).dev.image.bytes 0 (leNat h.size) = c.data.take (leNat h.size)) ∧
      (c.data.length < leNat h.size ∨ (∃ w ∈ (handleReq verifyMd5 md5 env d).writes, w.ok = false) →
        (handleReq verifyMd5 md5 env d).resp ≠ .ok ∧ (handleReq verifyMd5 md5 env d).setBootCalled = false) := by
  have hstart : Recv.Follows size c.data ⟨d.image, 0, c, []⟩ := ⟨rfl, herased, fun w hw => by cases hw⟩
  have hfollows := recvLoop_follows part c.data (leNat h.size) (leNat h.size) hstart (by dsimp only; omega)
  have herror := recvLoop_error env.part (leNat h.size) (leNat h.size) ⟨d.image, 0, c, []⟩
  rw [← hpart] at hfollows
  rw [handleReq, hheader]
  dsimp only
  generalize recvLoop env.part (leNat h.size) (leNat h.size) ⟨d.image, 0, c, []⟩ = l at hfollows herror
  obtain ⟨end?, l⟩ := l
  by_cases hmalloc : env.malloc = true
  · rw [if_neg (not_not.2 hmalloc)]
    cases end? with
    | some resp =>
      exact ⟨fun _ hend => absurd hend (Option.some_ne_none _), fun _ => ⟨fun hresp => herror (congrArg some hresp), rfl⟩⟩
    | none =>
      obtain ⟨hl, hsize⟩ := hfollows rfl
      have hlen : leNat h.size ≤ c.data.length := by
        rw [← hl.data, List.length_append, Image.length_bytes]
        omega
      have himage : l.image.bytes 0 (leNat h.size) = c.data.take (leNat h.size) := by
        obtain ⟨k, hk⟩ := Nat.exists_eq_add_of_le hsize
        rw [← hl.data, hk, Image.bytes_add, List.append_assoc]
        exact (List.take_left' (Image.length_bytes _ _ _)).symm
      have hfail : ¬ (c.data.length < leNat h.size ∨ ∃ w ∈ l.writes, w.ok = false) := by
        intro h
        rcases h with hshort | ⟨w, hw, hbad⟩
        · omega
        · rw [hl.writes w hw] at hbad
          cases hbad
      dsimp only
      split
      · exact ⟨fun _ _ => ⟨hlen, himage⟩, fun h => absurd h hfail⟩
      · cases env.setBoot <;> exact ⟨fun _ _ => ⟨hlen, himage⟩, fun h => absurd h hfail⟩
  · rw [if_pos hmalloc]
    exact ⟨fun hmalloc' => absurd hmalloc' hmalloc, fun _ => ⟨Resp.noConfusion, rfl⟩⟩

def twoBytes : ReqEnv 4096 where
  conn := [some (magic ++ ([0, 0, 0, 2] ++ (List.replicate 16 0 ++ [0x41]))), some [0x42]]
  malloc := true
  part := (plainPartition 4096 firmwareBlkSize).toPartition
  setBoot := .ok

theorem image_fidelity_twoBytes : (handleReq false id twoBytes waiting.dev).dev.image.bytes 0 2 = [0x41, 0x42] :=
  ((image_fidelity (plainPartition 4096 firmwareBlkSize) false id twoBytes rfl waiting.dev (fun _ _ _ => rfl)
    ⟨magic, List.replicate 16 0, [2, 0, 0, 0]⟩ [some [0x41], some [0x42]] rfl).1 rfl rfl).2

end Vedruino.Ota
