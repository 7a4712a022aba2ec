import Mathlib.Algebra.Group.Nat.Defs
import Vedruino.Config.Header
import Vedruino.Ota.Clean

/-!
# MD5 verification

The generator names the macro of `verify_md5` after the section `lib.ota`, so the header defines `CONF_LIB_OTA_VERIFY_MD5`. The conditionals of `ota.c` around the check ask for `CONF_OTA_VERIFY_MD5`, which no configuration defines.
-/

namespace Vedruino.Ota

open Config Ip

/-- What the conditionals of `ota.c` select: nothing where the module is off, else whether the MD5 is verified. -/
def compileOta (defs : List Def) : Option Bool :=
  if ifValue defs "CONF_LIB_OTA_ENABLED" ≠ 0 then some (ifValue defs "CONF_OTA_VERIFY_MD5" ≠ 0) else none

/-- The configuration has the module enabled and `verify_md5` set. -/
structure OtaVerified (ini : Ini) : Prop where
  enabled : getParamOrFail ini "lib.ota" "enabled" = .ok "true"
  verifyMd5 : getParamOrFail ini "lib.ota" "verify_md5" = .ok "true"

/-- The firmware that a request has delivered. -/
def Outcome.firmware (o : Outcome) : List UInt8 := o.writes.flatMap Write.data

/-- A firmware is booted only where the header of its request has its MD5. -/
def Md5Effective (verifyMd5 : Bool) (md5 : List UInt8 → List UInt8) (size : Nat) (firmware : List UInt8) : Prop :=
  ∀ (env : ReqEnv size) (d : Dev), (handleReq verifyMd5 md5 env d).firmware = firmware →
    (handleReq verifyMd5 md5 env d).setBootCalled = true → md5 firmware = (handleReq verifyMd5 md5 env d).dev.header.md5

/-! ### The macros -/

section

variable {int : String → Option Int} {ini : Ini} {defs : List Def}

private theorem ifValue_verifyMd5 (hgen : genHeader int ini = .ok defs) (hota : OtaVerified ini) :
    ifValue defs "CONF_LIB_OTA_ENABLED" = 1 ∧ ifValue defs "CONF_LIB_OTA_VERIFY_MD5" = 1 ∧
      ifValue defs "CONF_OTA_VERIFY_MD5" = 0 := by
  have hnames := genHeader_names hgen
  have hnodup : (defs.map Def.name).Nodup := by
    rw [hnames]
    exact headerNames_nodup
  have hmodule : ("lib.ota", [("verify_md5", KeyType.bool)]) ∈ modules := by decide
  obtain ⟨henabled, hkeys⟩ := mem_of_enabled hmodule hota.enabled hgen
  refine ⟨ifValue_of_mem hnodup henabled rfl, ifValue_of_mem hnodup (hkeys "verify_md5" (by decide) hota.verifyMd5) rfl, ?_⟩
  apply ifValue_of_notMem
  rw [hnames]
  decide +kernel

theorem compileOta_eq (hgen : genHeader int ini = .ok defs) (hota : OtaVerified ini) :
    compileOta defs = some false := by
  obtain ⟨henabled, -, hverify⟩ := ifValue_verifyMd5 hgen hota
  rw [compileOta, henabled, hverify]
  rfl

end

/-! ### Every firmware is accepted -/

/-- A partition on which only what is out of range fails. -/
abbrev plainPart (size : Nat) : UpdPart size := (plainPartition size firmwareBlkSize).toPartition

private theorem recvLoop_plain {size headerSize : Nat} (hfit : headerSize ≤ size) (fuel : Nat) {s : Recv}
    (hdata : headerSize = s.partBytesWritten + s.conn.data.length) (hfuel : s.conn.data.length ≤ fuel) :
    (recvLoop (plainPart size) headerSize fuel s).1 = none ∧
      (recvLoop (plainPart size) headerSize fuel s).2.data = s.data ++ s.conn.data := by
  induction fuel generalizing s with
  | zero =>
    rw [List.eq_nil_of_length_eq_zero (Nat.le_zero.1 hfuel), List.append_nil]
    exact ⟨rfl, rfl⟩
  | succ fuel ih =>
    rw [recvLoop]
    by_cases hlt : s.partBytesWritten < headerSize
    · rw [if_pos hlt]
      have hne : s.conn.data ≠ [] := List.ne_nil_of_length_pos (by omega)
      rcases hrecv : pkTcpRecv s.conn firmwareBufSize with ⟨_ | bs, c⟩
      · exact absurd (data_of_pkTcpRecv_none hrecv) hne
      · have hsplit := data_of_pkTcpRecv_some (by decide) hrecv
        by_cases hbs : bs = []
        · rw [if_pos hbs] at hsplit
          exact absurd hsplit hne
        · have hpos : 0 < bs.length := List.length_pos_iff.2 hbs
          rw [if_neg hbs] at hsplit
          rw [hsplit, List.length_append] at hdata hfuel
          have hok : ((plainPart size).write s.image s.partBytesWritten bs).2 = true :=
            plainPartition_write _ _ (by omega)
          dsimp only
          rw [if_neg (by omega), if_pos hok]
          obtain ⟨hend, hall⟩ := ih (s := ⟨((plainPart size).write s.image s.partBytesWritten bs).1,
            s.partBytesWritten + bs.length, c, s.writes ++ [⟨s.partBytesWritten, bs,
              ((plainPart size).write s.image s.partBytesWritten bs).2⟩]⟩) (by dsimp only; omega) (by dsimp only; omega)
          refine ⟨hend, hall.trans ?_⟩
          simp [Recv.data, hsplit]
    · rw [if_neg hlt, List.eq_nil_of_length_eq_zero (show s.conn.data.length = 0 by omega), List.append_nil]
      exact ⟨rfl, rfl⟩

/-- The size field of a request, in network order. -/
def sizeBytes (n : Nat) : List UInt8 :=
  [UInt8.ofNat (n / 16777216), UInt8.ofNat (n / 65536), UInt8.ofNat (n / 256), UInt8.ofNat n]

theorem leNat_sizeBytes {n : Nat} (h : n < 2 ^ 32) : leNat (sizeBytes n).reverse = n := by
  simp only [sizeBytes, List.reverse_cons, List.reverse_nil, List.nil_append, List.cons_append, leNat, UInt8.toNat_ofNat']
  omega

/-- What `ota.py` sends, with any bytes in place of the MD5. -/
def request (md5 firmware : List UInt8) : List UInt8 := magic ++ (sizeBytes firmware.length ++ (md5 ++ firmware))

def sendRequest (size : Nat) (md5 firmware : List UInt8) : ReqEnv size :=
  ⟨[some (request md5 firmware)], true, plainPart size, .ok⟩

private theorem handleReq_unverified (md5 : List UInt8 → List UInt8) {size : Nat} {field firmware : List UInt8}
    (hfield : field.length = md5Size) (hfit : firmware.length ≤ size) (hsize : size < 2 ^ 32) :
    (handleReq false md5 (sendRequest size field firmware) waiting.dev).setBootCalled = true ∧
      (handleReq false md5 (sendRequest size field firmware) waiting.dev).firmware = firmware ∧
      (handleReq false md5 (sendRequest size field firmware) waiting.dev).dev.header.md5 = field := by
  have hlen : leNat (sizeBytes firmware.length).reverse = firmware.length := leNat_sizeBytes (by omega)
  have hheader := recvHeader_sent size (h := waiting.dev.header) rfl rfl rfl (sizeBytes firmware.length) field rfl hfield
    (by rw [hlen]; exact hfit) firmware []
  generalize hc : (if firmware = [] then [] else [some firmware] : Conn) = c at hheader
  have hdata : c.data = firmware := by
    rw [← hc]
    by_cases hnil : firmware = []
    · rw [if_pos hnil, hnil]
      rfl
    · rw [if_neg hnil, Conn.data, if_neg hnil]
      exact List.append_nil _
  obtain ⟨hend, hall⟩ := recvLoop_plain hfit firmware.length (s := ⟨waiting.dev.image, 0, c, []⟩)
    (by rw [hdata, Nat.zero_add]) (by rw [hdata])
  rw [hdata] at hall
  rw [sendRequest, request, handleReq, hheader]
  dsimp only
  rw [if_neg (by decide), hlen]
  generalize recvLoop (plainPart size) firmware.length firmware.length ⟨waiting.dev.image, 0, c, []⟩ = l at hend hall
  rw [hend]
  exact ⟨rfl, hall, rfl⟩

/-- **With `verify_md5` set, no firmware is ever verified.** Every firmware that fits is booted with a request that has another MD5 in its header. -/
theorem not_md5Effective {int : String → Option Int} {ini : Ini} {defs : List Def} (hgen : genHeader int ini = .ok defs)
    (hota : OtaVerified ini) : ∃ verifyMd5, compileOta defs = some verifyMd5 ∧
      ∀ md5 size firmware, firmware.length ≤ size → size < 2 ^ 32 → ¬ Md5Effective verifyMd5 md5 size firmware := by
  refine ⟨false, compileOta_eq hgen hota, ?_⟩
  intro md5 size firmware hfit hsize heffective
  obtain ⟨field, hfield, hne⟩ : ∃ field : List UInt8, field.length = md5Size ∧ md5 firmware ≠ field := by
    by_cases hzero : md5 firmware = List.replicate md5Size 0
    · refine ⟨List.replicate md5Size 1, rfl, ?_⟩
      rw [hzero]
      decide
    · exact ⟨List.replicate md5Size 0, rfl, hzero⟩
  obtain ⟨hcalled, hdata, hheader⟩ := handleReq_unverified md5 hfield hfit hsize
  have heq := heffective _ _ hdata hcalled
  rw [hheader] at heq
  exact hne heq

/-- The default configuration with the module for OTA and those it needs. -/
def otaIni : Ini := fun s => [
    ("log", [("lib_level", "3"), ("app_level", "5"), ("print_file_line", "true"), ("print_time", "true"),
      ("print_color", "true"), ("btrace_on_error", "true")]),
    ("misc", [("startup_delay", "0"), ("pk_assert", "true")]),
    ("lib.ip", [("enabled", "true")]),
    ("lib.wifi", [("enabled", "true"), ("ssid", "ap"), ("password", ""), ("retry", "5")]),
    ("lib.ota", [("enabled", "true"), ("verify_md5", "true")])].lookup s |>.map fun keys key =>
      (keys.lookup key).map .value

/-- Python's `int` on the numbers of this configuration. -/
def otaInt : String → Option Int := fun s => [("0", 0), ("3", 3), ("5", 5)].lookup s

def otaDefs : List Def := (genHeader otaInt otaIni).toOption.getD []

theorem genHeader_otaIni : genHeader otaInt otaIni = .ok otaDefs := by decide +kernel

theorem otaIni_verified : OtaVerified otaIni := ⟨by decide, by decide⟩

theorem not_md5Effective_otaIni : ∃ verifyMd5, compileOta otaDefs = some verifyMd5 ∧
    ∀ md5 size firmware, firmware.length ≤ size → size < 2 ^ 32 → ¬ Md5Effective verifyMd5 md5 size firmware :=
  not_md5Effective genHeader_otaIni otaIni_verified

theorem otaDefs_boots_unverified : ¬ ∀ int ini defs verifyMd5, genHeader int ini = .ok defs → OtaVerified ini →
    compileOta defs = some verifyMd5 → ∀ md5 size firmware, Md5Effective verifyMd5 md5 size firmware := by
  intro h
  have hverify : compileOta otaDefs = some false := by decide +kernel
  have heffective := h _ _ _ _ genHeader_otaIni otaIni_verified hverify (fun _ => List.replicate md5Size 1) 4096 [0x41]
  have heq := heffective (sendRequest 4096 (List.replicate md5Size 0) [0x41]) waiting.dev (by decide +kernel) (by decide +kernel)
  revert heq
  decide +kernel

end Vedruino.Ota
