import Mathlib.Data.List.Basic

/-!
# Sending exactly n bytes

A socket answers each `write` with a short count, with `ENOMEM` or with another error. `pk_tcp_send` repeats one write while memory is short, `pk_tcp_sendn` goes on behind the bytes taken so far. Both are followed write by write, over every sequence of answers.
-/

namespace Vedruino.Ip

inductive Errno
  | enomem
  | other (code : Nat)
deriving DecidableEq

/-- The answer to a `write`: it takes one byte and so many more, as far as there are any, or it fails. -/
inductive Written
  | accepted (more : Nat)
  | failed (errno : Errno)
deriving DecidableEq

structure Write where
  data : List UInt8
  res : Written
deriving DecidableEq

/-- The bytes that the socket accepted. -/
def Write.taken (w : Write) : List UInt8 :=
  match w.res with
  | .accepted more => w.data.take (more + 1)
  | .failed _ => []

def taken (ws : List Write) : List UInt8 := ws.flatMap Write.taken

/-- `pkSendStatus_t` -/
inductive SendStatus
  | retry
  | err
  | ok

def maxRetriesOnEnomem : Nat := 100

/-- `handle_send` and the retries it leaves: `(*retries)++` counts every `ENOMEM`, also the one that is too many. -/
def handleSend (retries : Nat) : Written → SendStatus × Nat
  | .failed .enomem => (if retries < maxRetriesOnEnomem then .retry else .err, retries + 1)
  | .failed (.other _) => (.err, retries)
  | .accepted _ => (.ok, retries)

theorem handleSend_retry {retries retries' : Nat} {res : Written} (h : handleSend retries res = (.retry, retries')) :
    res = .failed .enomem ∧ retries < maxRetriesOnEnomem ∧ retries' = retries + 1 := by
  rcases res with more | ⟨_ | code⟩ <;> simp only [handleSend, Prod.mk.injEq, reduceCtorEq, false_and] at h
  obtain ⟨hst, rfl⟩ := h
  split at hst
  · next hlt => exact ⟨rfl, hlt, rfl⟩
  · cases hst

/-- The loop of `pk_tcp_send` from the answer `i` on: its result, where `none` is `PK_SOCKERR`, and its writes. -/
def sendLoop (results : Nat → Written) (i : Nat) (buf : List UInt8) (retries : Nat) : Option Nat × List Write :=
  let w : Write := ⟨buf, results i⟩
  match h : handleSend retries w.res with
  | (.retry, retries') =>
    let r := sendLoop results (i + 1) buf retries'
    (r.1, w :: r.2)
  | (.ok, _) => (some w.taken.length, [w])
  | (.err, _) => (none, [w])
termination_by maxRetriesOnEnomem - retries
decreasing_by
  obtain ⟨_, hlt, rfl⟩ := handleSend_retry h
  omega

def pkTcpSend (results : Nat → Written) (i : Nat) (buf : List UInt8) : Option Nat × List Write :=
  sendLoop results i buf 0

/-- How a call of `pk_tcp_send` ends: the write is answered by `ENOMEM` for a while, and then by `last`. -/
inductive Ending (buf : List UInt8) (retries : Nat) : Option Nat × List Write → Prop
  | accepted (n more : Nat) (hn : retries + n ≤ maxRetriesOnEnomem) :
    Ending buf retries
      (some (buf.take (more + 1)).length, List.replicate n ⟨buf, .failed .enomem⟩ ++ [⟨buf, .accepted more⟩])
  | failed (n code : Nat) (hn : retries + n ≤ maxRetriesOnEnomem) :
    Ending buf retries (none, List.replicate n ⟨buf, .failed .enomem⟩ ++ [⟨buf, .failed (.other code)⟩])
  | exhausted (n : Nat) (hn : retries + n = maxRetriesOnEnomem) :
    Ending buf retries (none, List.replicate n ⟨buf, .failed .enomem⟩ ++ [⟨buf, .failed .enomem⟩])

theorem Ending.retry {buf : List UInt8} {retries : Nat} {ret : Option Nat} {ws : List Write}
    (h : Ending buf (retries + 1) (ret, ws)) : Ending buf retries (ret, ⟨buf, .failed .enomem⟩ :: ws) := by
  cases h with
  | accepted n more hn => exact .accepted (n + 1) more (by omega)
  | failed n code hn => exact .failed (n + 1) code (by omega)
  | exhausted n hn => exact .exhausted (n + 1) (by omega)

private theorem sendLoop_ending (results : Nat → Written) (i : Nat) (buf : List UInt8) (retries : Nat)
    (hretries : retries ≤ maxRetriesOnEnomem) : Ending buf retries (sendLoop results i buf retries) := by
  fun_induction sendLoop results i buf retries with
  | case1 i retries w retries' h r ih =>
    obtain ⟨hres, hlt, rfl⟩ := handleSend_retry h
    have hw : w = ⟨buf, .failed .enomem⟩ := congrArg (Write.mk buf) hres
    rw [hw]
    exact (ih hlt).retry
  | case2 i retries w retries' h =>
    rcases hres : results i with more | ⟨_ | code⟩ <;> simp [w, hres, handleSend] at h
    · simp only [w, hres, Write.taken]
      exact .accepted 0 more hretries
    · split at h <;> simp at h
  | case3 i retries w retries' h =>
    rcases hres : results i with more | ⟨_ | code⟩ <;> simp [w, hres, handleSend] at h
    · simp only [w, hres]
      exact .exhausted 0 (by omega)
    · simp only [w, hres]
      exact .failed 0 code hretries

theorem pkTcpSend_ending (results : Nat → Written) (i : Nat) (buf : List UInt8) : Ending buf 0 (pkTcpSend results i buf) :=
  sendLoop_ending results i buf 0 (Nat.zero_le _)

/-- One call of `pk_tcp_send` meets an error other than `ENOMEM`, or too many `ENOMEM`. -/
def Fails (ws : List Write) : Prop :=
  (∃ w ∈ ws, ∃ code, w.res = .failed (.other code)) ∨
    maxRetriesOnEnomem < ws.countP fun w => w.res = .failed .enomem

variable {buf : List UInt8} {ret : Option Nat} {ws : List Write}

theorem taken_append (ws us : List Write) : taken (ws ++ us) = taken ws ++ taken us := List.flatMap_append

theorem taken_enomem (n : Nat) (buf : List UInt8) : taken (List.replicate n ⟨buf, .failed .enomem⟩) = [] := by
  apply List.flatMap_eq_nil_iff.2
  intro w hw
  rw [List.eq_of_mem_replicate hw, Write.taken]

theorem Ending.length_le (h : Ending buf 0 (ret, ws)) : ws.length ≤ maxRetriesOnEnomem + 1 := by
  cases h <;> simp <;> omega

/-- A call that returns a count takes so many bytes from the start of its buffer. -/
theorem Ending.taken_of_some {sent : Nat} (h : Ending buf 0 (some sent, ws)) :
    taken ws = buf.take sent ∧ sent ≤ buf.length ∧ (buf ≠ [] → 0 < sent) ∧ ¬Fails ws := by
  cases h with
  | accepted n more hn =>
    refine ⟨?_, List.length_take_le' _ _, ?_, ?_⟩
    · rw [taken_append, taken_enomem, List.nil_append, List.length_take, ← List.take_eq_take_min]
      simp [taken, Write.taken]
    · intro hbuf
      have hpos : 0 < buf.length := List.length_pos_iff.2 hbuf
      rw [List.length_take]
      omega
    · rintro (⟨w, hw, code, hres⟩ | hcount)
      · simp at hw
        rcases hw with ⟨_, rfl⟩ | rfl <;> simp at hres
      · simp [List.countP_replicate] at hcount
        omega

theorem Ending.fails_of_none (h : Ending buf 0 (none, ws)) : taken ws = [] ∧ Fails ws := by
  cases h with
  | failed n code hn =>
    refine ⟨?_, .inl ⟨_, List.mem_append_right _ (List.mem_singleton_self _), code, rfl⟩⟩
    rw [taken_append, taken_enomem]
    simp [taken, Write.taken]
  | exhausted n hn =>
    refine ⟨?_, .inr ?_⟩
    · rw [taken_append, taken_enomem]
      simp [taken, Write.taken]
    · simp [List.countP_replicate]
      omega

/-- A call writes again after `ENOMEM` alone, and this answers its last write only when there have been as many as it bears. -/
def Retries (ws : List Write) : Prop :=
  ∃ us w, ws = us ++ [w] ∧ (∀ u ∈ us, u.res = .failed .enomem) ∧ (w.res = .failed .enomem → us.length = maxRetriesOnEnomem)

theorem Ending.retries (h : Ending buf 0 (ret, ws)) : Retries ws := by
  cases h with
  | accepted n more hn | failed n code hn =>
    refine ⟨_, _, rfl, ?_, fun hw => by cases hw⟩
    intro u hu
    rw [List.eq_of_mem_replicate hu]
  | exhausted n hn =>
    refine ⟨_, _, rfl, ?_, fun _ => ?_⟩
    · intro u hu
      rw [List.eq_of_mem_replicate hu]
    · rw [List.length_replicate]
      omega

private theorem taken_of_enomem (h : ∀ w ∈ ws, w.res = .failed .enomem) : taken ws = [] := by
  apply List.flatMap_eq_nil_iff.2
  intro w hw
  rw [Write.taken, h w hw]

/-- The socket gives the answers from `i` on, and each write is of what those before it have left of the buffer. -/
def Answered (results : Nat → Written) (i : Nat) (buf : List UInt8) (ws : List Write) : Prop :=
  ∀ j w, ws[j]? = some w → w.res = results (i + j) ∧ w.data = buf.drop (taken (ws.take j)).length

theorem Answered.append {results : Nat → Written} {i : Nat} {us : List Write} (hws : Answered results i buf ws)
    (hus : Answered results (i + ws.length) (buf.drop (taken ws).length) us) : Answered results i buf (ws ++ us) := by
  intro j w hw
  by_cases hj : j < ws.length
  · rw [List.getElem?_append_left hj] at hw
    rw [List.take_append_of_le_length (Nat.le_of_lt hj)]
    exact hws j w hw
  · obtain ⟨k, rfl⟩ := Nat.exists_eq_add_of_le (Nat.le_of_not_lt hj)
    rw [List.getElem?_append_right (Nat.le_add_right _ _), Nat.add_sub_cancel_left] at hw
    obtain ⟨hres, hdata⟩ := hus k w hw
    refine ⟨by rw [hres, Nat.add_assoc], ?_⟩
    rw [hdata, List.take_length_add_append, taken_append, List.length_append, List.drop_drop]

/-- Every write of a call is of its whole buffer. -/
theorem getElem?_sendLoop (results : Nat → Written) (i : Nat) (buf : List UInt8) (retries : Nat) :
    ∀ (j : Nat) (w : Write), (sendLoop results i buf retries).2[j]? = some w → w = ⟨buf, results (i + j)⟩ := by
  fun_induction sendLoop results i buf retries with
  | case1 i retries v retries' h r ih =>
    intro j w hw
    cases j with
    | zero => exact (Option.some_inj.1 hw).symm
    | succ j => rw [ih j w hw, Nat.add_assoc, Nat.add_comm 1 j]
  | case2 i retries v retries' h | case3 i retries v retries' h =>
    intro j w hw
    cases j with
    | zero => exact (Option.some_inj.1 hw).symm
    | succ j => cases hw

theorem pkTcpSend_answered {results : Nat → Written} {i : Nat} (h : pkTcpSend results i buf = (ret, ws)) :
    Answered results i buf ws := by
  intro j w hw
  have hend := pkTcpSend_ending results i buf
  rw [h] at hend
  obtain ⟨us, last, rfl, hus, -⟩ := hend.retries
  have hw' : (sendLoop results i buf 0).2[j]? = some w := by rwa [← pkTcpSend, h]
  have hj : j < (us ++ [last]).length := (List.getElem?_eq_some_iff.1 hw).1
  rw [List.length_append, List.length_singleton] at hj
  have hnil : taken ((us ++ [last]).take j) = [] := by
    rw [List.take_append_of_le_length (by omega)]
    exact taken_of_enomem fun u hu => hus u (List.mem_of_mem_take hu)
  rw [getElem?_sendLoop results i buf 0 j w hw', hnil]
  exact ⟨rfl, rfl⟩

theorem pos_of_pkTcpSend {results : Nat → Written} {i sent : Nat} (hbuf : buf ≠ [])
    (h : pkTcpSend results i buf = (some sent, ws)) : 0 < sent ∧ sent ≤ buf.length := by
  have hend := pkTcpSend_ending results i buf
  rw [h] at hend
  obtain ⟨_, hle, hpos, _⟩ := hend.taken_of_some
  exact ⟨hpos hbuf, hle⟩

theorem drop_ne_nil {n : Nat} (hlt : n < buf.length) : buf.drop n ≠ [] := by
  intro h
  exact Nat.not_le.2 hlt (List.drop_eq_nil_iff.1 h)

/-- `handle_n_func` -/
def handleNFunc (processed exp : Nat) : Bool := processed = exp

/-- The result of `pk_tcp_sendn` and the writes of each `pk_tcp_send` it calls. -/
structure Sendn where
  ret : Bool
  sends : List (List Write)

def Sendn.writes (r : Sendn) : List Write := r.sends.flatten

/-- The loop of `pk_tcp_sendn` from the answer `i` on. -/
def sendnLoop (results : Nat → Written) (i : Nat) (buf : List UInt8) (totalSent : Nat) : Sendn :=
  if _hlt : totalSent < buf.length then
    match _hsend : pkTcpSend results i (buf.drop totalSent) with
    | (none, ws) => ⟨false, [ws]⟩
    | (some sent, ws) =>
      let r := sendnLoop results (i + ws.length) buf (totalSent + sent)
      ⟨r.ret, ws :: r.sends⟩
  else ⟨handleNFunc totalSent buf.length, []⟩
termination_by buf.length - totalSent
decreasing_by
  obtain ⟨hpos, _⟩ := pos_of_pkTcpSend (drop_ne_nil _hlt) _hsend
  omega

def pkTcpSendn (results : Nat → Written) (buf : List UInt8) : Sendn := sendnLoop results 0 buf 0

/-- What `pk_tcp_sendn` promises for the bytes still to be sent, where the socket gives the answers from `i` on. -/
structure Sendn.Correct (results : Nat → Written) (i : Nat) (r : Sendn) (rest : List UInt8) : Prop where
  answered : Answered results i rest r.writes
  retries : ∀ ws ∈ r.sends, Retries ws
  follows : ∀ ws, ws <+: r.writes → taken ws <+: rest
  all : r.ret = true ↔ taken r.writes = rest
  fails : r.ret = false ↔ ∃ ws ∈ r.sends, Fails ws
  length_le : r.writes.length ≤ (maxRetriesOnEnomem + 1) * rest.length

theorem taken_isPrefix {us : List Write} (h : ws <+: us) : taken ws <+: taken us := by
  obtain ⟨vs, rfl⟩ := h
  rw [taken_append]
  exact List.prefix_append _ _

variable {results : Nat → Written} {i : Nat}

theorem Sendn.Correct.done : Sendn.Correct results i ⟨true, []⟩ [] where
  answered _ _ hw := by cases hw
  retries := List.forall_mem_nil _
  follows ws hws := by
    rw [List.prefix_nil.1 hws]
    exact List.prefix_refl _
  all := ⟨fun _ => rfl, fun _ => rfl⟩
  fails := by simp
  length_le := Nat.le_refl _

theorem Sendn.Correct.failed {rest : List UInt8} (hrest : rest ≠ []) (hanswered : Answered results i rest ws)
    (h : Ending rest 0 (none, ws)) : Sendn.Correct results i ⟨false, [ws]⟩ rest := by
  obtain ⟨htaken, hfails⟩ := h.fails_of_none
  have hlen := h.length_le
  have hpos : 0 < rest.length := List.length_pos_iff.2 hrest
  have hwrites : Sendn.writes ⟨false, [ws]⟩ = ws := List.append_nil ws
  refine ⟨?_, List.forall_mem_singleton.2 h.retries, ?_, ?_, ?_, ?_⟩
  · rwa [hwrites]
  · intro us hus
    rw [hwrites] at hus
    have hnil := taken_isPrefix hus
    rw [htaken, List.prefix_nil] at hnil
    rw [hnil]
    exact List.nil_prefix
  · rw [hwrites, htaken]
    simp [Ne.symm hrest]
  · simp [hfails]
  · rw [hwrites]
    calc ws.length ≤ (maxRetriesOnEnomem + 1) * 1 := by omega
      _ ≤ (maxRetriesOnEnomem + 1) * rest.length := Nat.mul_le_mul_left _ hpos

theorem Sendn.Correct.next {rest : List UInt8} {sent : Nat} {r : Sendn} (hrest : rest ≠ [])
    (hanswered : Answered results i rest ws) (h : Ending rest 0 (some sent, ws))
    (hr : r.Correct results (i + ws.length) (rest.drop sent)) : Sendn.Correct results i ⟨r.ret, ws :: r.sends⟩ rest := by
  obtain ⟨htaken, hle, hpos, hfails⟩ := h.taken_of_some
  have hlen := h.length_le
  have hwrites : Sendn.writes ⟨r.ret, ws :: r.sends⟩ = ws ++ r.writes := List.flatten_cons
  have hsplit : rest.take sent ++ rest.drop sent = rest := List.take_append_drop sent rest
  refine ⟨?_, List.forall_mem_cons.2 ⟨h.retries, hr.retries⟩, ?_, ?_, ?_, ?_⟩
  · rw [hwrites]
    apply hanswered.append
    rw [htaken, List.length_take_of_le hle]
    exact hr.answered
  · intro us hus
    rw [hwrites] at hus
    rcases List.prefix_or_prefix_of_prefix hus (List.prefix_append ws r.writes) with hfirst | ⟨vs, rfl⟩
    · apply (taken_isPrefix hfirst).trans
      rw [htaken]
      exact List.take_prefix sent rest
    · rw [taken_append, htaken, ← hsplit, List.take_left' (by rw [List.length_take]; omega)]
      exact (List.prefix_append_right_inj _).2 (hr.follows vs ((List.prefix_append_right_inj _).1 hus))
  · rw [hwrites, taken_append, htaken, hr.all]
    constructor
    · intro hall
      rw [hall, hsplit]
    · intro hall
      exact List.append_cancel_left (hall.trans hsplit.symm)
  · simp [hfails, hr.fails]
  · have hcalls := hr.length_le
    rw [List.length_drop] at hcalls
    rw [hwrites, List.length_append]
    calc ws.length + r.writes.length ≤ (maxRetriesOnEnomem + 1) * 1 + (maxRetriesOnEnomem + 1) * (rest.length - sent) := by
          omega
      _ = (maxRetriesOnEnomem + 1) * (1 + (rest.length - sent)) := (Nat.mul_add _ _ _).symm
      _ ≤ (maxRetriesOnEnomem + 1) * rest.length := Nat.mul_le_mul_left _ (by have := hpos hrest; omega)

theorem sendnLoop_correct (results : Nat → Written) (i : Nat) (buf : List UInt8) (totalSent : Nat)
    (hle : totalSent ≤ buf.length) : (sendnLoop results i buf totalSent).Correct results i (buf.drop totalSent) := by
  fun_induction sendnLoop results i buf totalSent with
  | case1 i totalSent hlt ws h =>
    have hend := pkTcpSend_ending results i (buf.drop totalSent)
    rw [h] at hend
    exact .failed (drop_ne_nil hlt) (pkTcpSend_answered h) hend
  | case2 i totalSent hlt sent ws h r ih =>
    have hne := drop_ne_nil hlt
    have hend := pkTcpSend_ending results i (buf.drop totalSent)
    obtain ⟨_, hsent⟩ := pos_of_pkTcpSend hne h
    rw [List.length_drop] at hsent
    rw [h] at hend
    have hrest := ih (by omega)
    rw [← List.drop_drop] at hrest
    exact .next hne (pkTcpSend_answered h) hend hrest
  | case3 i totalSent hlt =>
    have heq : totalSent = buf.length := by omega
    rw [heq, List.drop_length, handleNFunc, decide_eq_true rfl]
    exact .done

/-- **Sending exactly n bytes.** Whatever the writes answer, each of them is of what those before it have left of the buffer, and only `ENOMEM` makes a call write again. The bytes taken are at all times a prefix of the buffer, the result says rightly whether all of them were, and the number of writes is bounded. -/
theorem pkTcpSendn_correct (results : Nat → Written) (buf : List UInt8) :
    (∀ i w, (pkTcpSendn results buf).writes[i]? = some w →
      w.res = results i ∧ w.data = buf.drop (taken ((pkTcpSendn results buf).writes.take i)).length) ∧
    (∀ ws ∈ (pkTcpSendn results buf).sends, Retries ws) ∧
    (∀ ws, ws <+: (pkTcpSendn results buf).writes → taken ws <+: buf) ∧
      ((pkTcpSendn results buf).ret = true ↔ taken (pkTcpSendn results buf).writes = buf) ∧
        ((pkTcpSendn results buf).ret = false ↔ ∃ ws ∈ (pkTcpSendn results buf).sends, Fails ws) ∧
          (pkTcpSendn results buf).writes.length ≤ 101 * buf.length := by
  obtain ⟨hanswered, hretries, hfollows, hall, hfails, hlen⟩ := sendnLoop_correct results 0 buf 0 (Nat.zero_le _)
  refine ⟨?_, hretries, hfollows, hall, hfails, hlen⟩
  intro i w hw
  obtain ⟨hres, hdata⟩ := hanswered i w hw
  exact ⟨by rw [hres, Nat.zero_add], hdata⟩

/-- No memory at first, then two bytes of the three, then the last one. -/
def shortWrites : Nat → Written
  | 0 => .failed .enomem
  | 1 => .accepted 1
  | _ => .accepted 9

theorem pkTcpSendn_shortWrites : (pkTcpSendn shortWrites [1, 2, 3]).ret = true ∧
    (pkTcpSendn shortWrites [1, 2, 3]).writes =
      [⟨[1, 2, 3], .failed .enomem⟩, ⟨[1, 2, 3], .accepted 1⟩, ⟨[3], .accepted 9⟩] := by
  have hwrites : (pkTcpSendn shortWrites [1, 2, 3]).writes =
      [⟨[1, 2, 3], .failed .enomem⟩, ⟨[1, 2, 3], .accepted 1⟩, ⟨[3], .accepted 9⟩] := by decide +kernel
  obtain ⟨-, -, -, hall, -⟩ := pkTcpSendn_correct shortWrites [1, 2, 3]
  refine ⟨hall.2 ?_, hwrites⟩
  rw [hwrites]
  rfl

end Vedruino.Ip
