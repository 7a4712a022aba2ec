import Vedruino.Ota.Server

/-!
# Failed updates leave nothing behind

While a request writes, everything from `part_bytes_written` on is still erased, also when a write has failed or was refused. Erasing whole blocks up to there erases the partition, so the server waits for the next request with a clean partition or has stopped.
-/

namespace Vedruino.Ota

open Ip

/-- What a failed request may not change. -/
structure Dev.Clean (size : Nat) (boot : BootSel) (d : Dev) : Prop where
  erased : Erased d.image 0 size
  partBytesWritten : d.partBytesWritten = 0
  boot : d.boot = boot
  priority : d.priority = lowPriority

section

variable {size : Nat}

private theorem recvLoop_erased (part : UpdPart size) (headerSize fuel : Nat) {s : Recv}
    (h : Erased s.image s.partBytesWritten size) :
    Erased (recvLoop part headerSize fuel s).2.image (recvLoop part headerSize fuel s).2.partBytesWritten size := by
  induction fuel generalizing s with
  | zero => exact h
  | succ fuel ih =>
    rw [recvLoop]
    split
    · split
      · exact h
      · next bs c _ =>
        split
        · exact h
        · have hwrite : Erased (part.write s.image s.partBytesWritten bs).1 (s.partBytesWritten + bs.length) size :=
            part.erased_write (h.mono (Nat.le_add_right _ _) le_rfl) le_rfl
          dsimp only
          split
          · exact ih hwrite
          · exact hwrite
    · exact h

/-- What is behind `part_bytes_written` is erased, and only a successful request changes the boot selection. -/
structure Outcome.Contained (size : Nat) (d : Dev) (o : Outcome) : Prop where
  erased : Erased o.dev.image o.dev.partBytesWritten size
  boot : o.resp ≠ .ok → o.dev.boot = d.boot
  priority : o.dev.priority = d.priority

variable (verifyMd5 : Bool) (md5 : List UInt8 → List UInt8) (env : ReqEnv size)

private theorem handleReq_contained {d : Dev} (herased : Erased d.image 0 size) (hzero : d.partBytesWritten = 0) :
    (handleReq verifyMd5 md5 env d).Contained size d := by
  have hstart : Erased d.image d.partBytesWritten size := by rwa [hzero]
  rw [handleReq]
  dsimp only
  split
  · exact ⟨hstart, fun _ => rfl, rfl⟩
  · split
    · exact ⟨hstart, fun _ => rfl, rfl⟩
    · generalize hr : recvHeader size d.header env.conn = r
      have hloop := recvLoop_erased env.part (leNat r.2.1.size) (leNat r.2.1.size) (s := ⟨d.image, 0, r.2.2, []⟩) herased
      generalize recvLoop env.part (leNat r.2.1.size) (leNat r.2.1.size) ⟨d.image, 0, r.2.2, []⟩ = l at hloop
      split
      · exact ⟨hloop, fun _ => rfl, rfl⟩
      · split
        · exact ⟨hloop, fun _ => rfl, rfl⟩
        · split
          · exact ⟨hloop, fun h => absurd rfl h, rfl⟩
          · exact ⟨hloop, fun _ => rfl, rfl⟩
          · exact ⟨hloop, fun _ => rfl, rfl⟩

theorem eraseBytes_spec (hsize : firmwareBlkSize ∣ size) (bytes : Nat) :
    firmwareBlkSize ∣ eraseBytes size bytes ∧ min bytes size ≤ eraseBytes size bytes ∧ eraseBytes size bytes ≤ size := by
  have hmin : (if bytes > size then size else bytes) = min bytes size := by
    split <;> omega
  refine ⟨Nat.dvd_mul_left _ _, ?_⟩
  rw [eraseBytes, hmin]
  obtain ⟨k, rfl⟩ := hsize
  split
  · simp only [firmwareBlkSize] at *
    omega
  · simp only [firmwareBlkSize] at *
    omega

theorem eraseUpdPart_erased (part : UpdPart size) (hsize : firmwareBlkSize ∣ size) {bytes : Nat} {m : Image}
    (h : Erased m bytes size) (hok : (eraseUpdPart part bytes m).2 = true) :
    Erased (eraseUpdPart part bytes m).1 0 size := by
  obtain ⟨hblk, hlow, hhigh⟩ := eraseBytes_spec hsize bytes
  have herased : Erased m (min bytes size) size := fun i hlo hhi => h i (by omega) hhi
  exact part.erased_erase herased hlow hblk hhigh hok

private theorem checkLoop_clean (part : UpdPart size) (hsize : firmwareBlkSize ∣ size) {m : Image} (fuel offs : Nat)
    (hoffs : firmwareBlkSize ∣ offs) (hfuel : size ≤ offs + fuel) (h : checkLoop part m fuel offs = .clean) :
    Erased m offs size := by
  induction fuel generalizing offs with
  | zero => exact fun i _ _ => by omega
  | succ fuel ih =>
    rw [checkLoop] at h
    split at h
    · next hlt =>
      have hblk : offs + firmwareBlkSize ≤ size := by
        obtain ⟨k, rfl⟩ := hsize
        obtain ⟨j, rfl⟩ := hoffs
        simp only [firmwareBlkSize] at hlt ⊢
        omega
      split at h
      · cases h
      · next buf hread =>
        split at h
        · next hall =>
          have hbuf := part.read_bytes m offs firmwareBlkSize buf hblk hread
          have hbytes : ∀ b ∈ m.bytes offs firmwareBlkSize, b = 0xff := by
            intro b hb
            rw [← hbuf] at hb
            exact eq_of_beq (List.all_eq_true.1 hall b hb)
          have hpos : 0 < firmwareBlkSize := by decide
          exact (Erased.of_bytes hbytes).trans (ih (offs + firmwareBlkSize) (Nat.dvd_add_self_right.2 hoffs) (by omega) h)
        · cases h
    · exact fun i _ _ => by omega

private theorem begin_clean {boot : BootSel} {d : Dev} (found malloc listening : Bool) (part : UpdPart size)
    (hzero : d.partBytesWritten = 0) (hboot : d.boot = boot) (hpriority : d.priority = lowPriority)
    (h : (Server.begin found malloc listening part d).phase = .accept) :
    firmwareBlkSize ∣ size ∧ (Server.begin found malloc listening part d).dev.Clean size boot := by
  rw [Server.begin] at h ⊢
  split at h
  · cases h
  · next hassert =>
    rw [not_or, not_not, not_not] at hassert
    have hsize := Nat.dvd_of_mod_eq_zero hassert.2
    refine ⟨hsize, ?_⟩
    rw [if_neg (by simp [hassert])]
    split at h
    · cases h
    · next hcheck =>
      refine ⟨?_, hzero, hboot, hpriority⟩
      rw [checkUpdPart] at hcheck
      split at hcheck
      · exact checkLoop_clean part hsize size 0 (Nat.dvd_zero _) (by omega) hcheck
      · cases hcheck
    · dsimp only at h ⊢
      split at h
      · next hok => exact ⟨eraseUpdPart_erased part hsize (fun i _ _ => by omega) hok.1, hzero, hboot, hpriority⟩
      · cases h

theorem serve_clean {boot : BootSel} {d : Dev} (hsize : firmwareBlkSize ∣ size) (hd : d.Clean size boot)
    (hresp : (Server.serve verifyMd5 md5 env d).2 ≠ .ok) :
    (Server.serve verifyMd5 md5 env d).1.phase = .stopped ∨
      (Server.serve verifyMd5 md5 env d).1.phase = .accept ∧
        (Server.serve verifyMd5 md5 env d).1.dev.Clean size boot := by
  have ho := handleReq_contained verifyMd5 md5 env (d := { d with priority := highPriority }) hd.erased hd.partBytesWritten
  rw [Server.serve] at hresp ⊢
  generalize handleReq verifyMd5 md5 env { d with priority := highPriority } = o at ho hresp ⊢
  by_cases hok : o.resp = .ok
  · rw [if_pos hok] at hresp
    exact absurd rfl hresp
  · have hboot : o.dev.boot = boot := (ho.boot hok).trans hd.boot
    rw [if_neg hok]
    by_cases hwritten : o.dev.partBytesWritten = 0
    · rw [if_neg (not_not.2 hwritten)]
      have herased := ho.erased
      rw [hwritten] at herased
      exact .inr ⟨rfl, herased, hwritten, hboot, rfl⟩
    · rw [if_pos hwritten]
      dsimp only
      by_cases herase : (eraseUpdPart env.part o.dev.partBytesWritten o.dev.image).2 = true
      · rw [if_pos herase]
        exact .inr ⟨rfl, eraseUpdPart_erased env.part hsize ho.erased herase, rfl, hboot, rfl⟩
      · rw [if_neg herase]
        exact .inl rfl

private theorem serve_ok {d : Dev} (hresp : (Server.serve verifyMd5 md5 env d).2 = .ok) :
    (Server.serve verifyMd5 md5 env d).1.phase = .restarted := by
  rw [Server.serve] at hresp ⊢
  generalize handleReq verifyMd5 md5 env { d with priority := highPriority } = o at hresp ⊢
  by_cases hok : o.resp = .ok
  · rw [if_pos hok]
  · rw [if_neg hok] at hresp
    dsimp only at hresp
    split at hresp
    · split at hresp <;> exact absurd hresp hok
    · exact absurd hresp hok

/-- The server has not started, or waits on a clean partition, or is out of its loop. -/
structure Server.Inv (size : Nat) (boot : BootSel) (s : Server) : Prop where
  start : s.phase = .start → s.Init boot
  accept : s.phase = .accept → firmwareBlkSize ∣ size ∧ s.dev.Clean size boot

variable {verifyMd5 md5}

private theorem begin_phase (found malloc listening : Bool) (part : UpdPart size) (d : Dev) :
    (Server.begin found malloc listening part d).phase = .accept ∨
      (Server.begin found malloc listening part d).phase = .stopped := by
  rw [Server.begin]
  split
  · exact .inr rfl
  · split
    · exact .inr rfl
    · cases listening
      · exact .inr rfl
      · exact .inl rfl
    · dsimp only
      split
      · exact .inl rfl
      · exact .inr rfl

theorem Server.Inv.step {boot : BootSel} {s t : Server} {i : Input size} {resp : Option Resp} (h : s.Inv size boot)
    (hstep : s.step verifyMd5 md5 i = some (t, resp)) :
    t.Inv size boot ∧ (resp ≠ some .ok → t.phase = .accept ∨ t.phase = .stopped) := by
  cases i with
  | start found malloc listening part =>
    rw [Server.step, Option.ite_none_right_eq_some] at hstep
    obtain ⟨hphase, hstep⟩ := hstep
    cases hstep
    obtain ⟨-, hzero, hboot, hpriority⟩ := h.start hphase
    have hend := begin_phase found malloc listening part s.dev
    refine ⟨⟨fun hstart => ?_, fun haccept => begin_clean found malloc listening part hzero hboot hpriority haccept⟩,
      fun _ => hend⟩
    rw [hstart] at hend
    rcases hend with hend | hend <;> cases hend
  | acceptFailed =>
    rw [Server.step, Option.ite_none_right_eq_some] at hstep
    obtain ⟨hphase, hstep⟩ := hstep
    cases hstep
    exact ⟨h, fun _ => .inl hphase⟩
  | request env =>
    rw [Server.step, Option.ite_none_right_eq_some] at hstep
    obtain ⟨hphase, hstep⟩ := hstep
    simp only [Option.some.injEq, Prod.mk.injEq] at hstep
    obtain ⟨rfl, rfl⟩ := hstep
    obtain ⟨hsize, hclean⟩ := h.accept hphase
    by_cases hresp : (Server.serve verifyMd5 md5 env s.dev).2 = .ok
    · have hphase' := serve_ok verifyMd5 md5 env hresp
      refine ⟨⟨fun hstart => ?_, fun haccept => ?_⟩, fun hne => absurd (congrArg some hresp) hne⟩
      · rw [hphase'] at hstart
        cases hstart
      · rw [hphase'] at haccept
        cases haccept
    · rcases serve_clean verifyMd5 md5 env hsize hclean hresp with hstopped | ⟨haccept, hclean'⟩
      · refine ⟨⟨fun hstart => ?_, fun haccept => ?_⟩, fun _ => .inr hstopped⟩
        · rw [hstopped] at hstart
          cases hstart
        · rw [hstopped] at haccept
          cases haccept
      · refine ⟨⟨fun hstart => ?_, fun _ => ⟨hsize, hclean'⟩⟩, fun _ => .inl haccept⟩
        rw [haccept] at hstart
        cases hstart

theorem Server.inv_of_reachable {boot : BootSel} {s : Server} (h : (server size verifyMd5 md5 boot).Reachable s) :
    s.Inv size boot := by
  refine h.invariant (fun s hinit => ⟨fun _ => hinit, fun haccept => ?_⟩) fun s l t hs _ hstep => (hs.step hstep).1
  rw [hinit.phase] at haccept
  cases haccept

theorem Server.reachable_step {boot : BootSel} {s t : Server} {i : Input size} {resp : Option Resp}
    (hs : (server size verifyMd5 md5 boot).Reachable s) (hstep : s.step verifyMd5 md5 i = some (t, resp)) :
    (server size verifyMd5 md5 boot).Reachable t :=
  .step (l := (i, resp)) hs trivial hstep

/-- **Each time the server is about to accept a request, the partition is erased and everything else is as at the start.** A step that is not a successful request ends there or with the task deleted. -/
theorem accept_clean {boot : BootSel} {s : Server} (hs : (server size verifyMd5 md5 boot).Reachable s) :
    (s.phase = .accept → Erased s.dev.image 0 size ∧ s.dev.partBytesWritten = 0 ∧ s.dev.boot = boot ∧
        s.dev.priority = lowPriority) ∧
      ∀ (i : Input size) resp t, s.step verifyMd5 md5 i = some (t, resp) → resp ≠ some .ok →
        t.phase = .accept ∨ t.phase = .stopped := by
  have h := Server.inv_of_reachable hs
  refine ⟨fun hphase => ?_, fun i resp t hstep => (h.step hstep).2⟩
  obtain ⟨-, herased, hzero, hboot, hpriority⟩ := h.accept hphase
  exact ⟨herased, hzero, hboot, hpriority⟩

end

theorem checkLoop_plain (size fuel offs : Nat) :
    checkLoop (plainPartition size firmwareBlkSize).toPartition (fun _ => 0xff) fuel offs = .clean := by
  induction fuel generalizing offs with
  | zero => rfl
  | succ fuel ih =>
    rw [checkLoop, ih]
    simp [plainPartition, Image.bytes]

def waiting : Server :=
  ⟨.accept, ⟨⟨List.replicate 13 0, List.replicate 16 0, List.replicate 4 0⟩, fun _ => 0xff, 0, .running, lowPriority⟩⟩

theorem waiting_reachable : (server 4096 false id .running).Reachable waiting := by
  refine .step (s := { waiting with phase := .start }) (l := (.start true true true (plainPartition 4096 _).toPartition, none))
    (.init ⟨rfl, rfl, rfl, rfl⟩) trivial ?_
  show some (Server.begin true true true _ waiting.dev, none) = _
  rw [Server.begin, if_neg (by decide), checkUpdPart, if_pos rfl]
  rw [show waiting.dev.image = fun _ => 0xff from rfl, checkLoop_plain]
  rfl

def truncated : ReqEnv 4096 where
  conn := [some (magic ++ ([0, 0, 0, 2] ++ (List.replicate 16 0 ++ [0x41])))]
  malloc := true
  part := (plainPartition 4096 firmwareBlkSize).toPartition
  setBoot := .ok

def afterTruncated : Server := (Server.serve false id truncated waiting.dev).1

theorem truncated_step :
    waiting.step false id (.request truncated) = some (afterTruncated, some .firmwareUnexpectedEnd) := rfl

theorem accept_clean_truncated : Erased afterTruncated.dev.image 0 4096 :=
  ((accept_clean (Server.reachable_step waiting_reachable truncated_step)).1 rfl).1

end Vedruino.Ota
