import Mathlib.Order.MinMax
import Vedruino.Mqtt.Connect

/-!
# The attempts to connect

The handler counts disconnections up to `CONF_LIB_MQTT_RETRY` and gives up at the next one. Its counter is a static variable that nothing sets back. So the first call of `pk_mqtt_connect` gets its attempts, and any later one, or a connection lost again, only those that no disconnection has used before.
-/

namespace Vedruino.Mqtt

variable {confRetry : Int} {s t : Conn}

theorem setsFail_iff {h : HandlerState} {e : EventId} :
    setsFail confRetry h e = true ↔ e = .disconnected ∧ confRetry ≤ h.retry := by
  cases e with
  | disconnected =>
    by_cases hlt : h.retry < confRetry
    · have hle : ¬ confRetry ≤ h.retry := Int.not_le.2 hlt
      simp [setsFail, mqttEventHandler, hlt, hle, pkMqttDisconnectedBit, pkMqttFailBit]
    · have hle : confRetry ≤ h.retry := Int.not_lt.1 hlt
      simp [setsFail, mqttEventHandler, hlt, hle, pkMqttDisconnectedBit, pkMqttFailBit]
  | connected | subscribed | unsubscribed | published | error | other => simp [setsFail, mqttEventHandler] <;> decide

namespace Conn

/-- Where the count of disconnected events starts anew, the counter of the handler is zero. -/
def Restored (s : Conn) : ConnEvent → Prop
  | .connect | .event .connected => s.handler.retry = 0
  | _ => True

instance (s : Conn) : DecidablePred s.Restored
  | .connect | .event .connected => inferInstanceAs (Decidable (_ = _))
  | .delete | .go _ | .receive _ | .event .disconnected | .event .subscribed | .event .unsubscribed | .event .published
  | .event .error | .event .other => isTrue trivial

/-- The handler has counted the disconnections, and has given up only after more than it may. -/
structure Counted (confRetry : Int) (s : Conn) : Prop where
  retry : s.handler.retry = min (s.since : Int) (max confRetry 0)
  failedAt : ∀ n ∈ s.failedAt, confRetry < n

theorem Counted.of_eq (h : s.Counted confRetry) (hretry : t.handler.retry = s.handler.retry) (hsince : t.since = s.since)
    (hfailed : t.failedAt = s.failedAt) : t.Counted confRetry := by
  refine ⟨?_, ?_⟩
  · rw [hretry, hsince]
    exact h.retry
  · rw [hfailed]
    exact h.failedAt

/-- The calls of the two functions leave the counter as it is. -/
theorem go_keeps {ok : Bool} (hstep : s.go ok = some t) :
    t.handler.retry = s.handler.retry ∧ t.since = s.since ∧ t.failedAt = s.failedAt := by
  cases hpc : s.pc
  all_goals simp only [Conn.go, hpc] at hstep
  case waitBits =>
    split at hstep
    · cases hstep
      exact ⟨rfl, rfl, rfl⟩
    · split at hstep
      · cases hstep
        exact ⟨rfl, rfl, rfl⟩
      · rw [Option.ite_none_right_eq_some] at hstep
        cases hstep.2
        exact ⟨rfl, rfl, rfl⟩
  case destroy failed =>
    split at hstep
    all_goals
      cases hstep
      exact ⟨rfl, rfl, rfl⟩
  all_goals
    cases ok <;> cases hstep <;> exact ⟨rfl, rfl, rfl⟩

theorem Counted.event {e : EventId} (h : s.Counted confRetry) (hguard : s.Restored (.event e))
    (hstep : s.step confRetry (.event e) = some t) : t.Counted confRetry := by
  rw [step, Option.ite_none_left_eq_some] at hstep
  obtain ⟨-, hstep⟩ := hstep
  cases hstep
  have hretry := h.retry
  cases e with
  | connected =>
    have hzero : s.handler.retry = 0 := hguard
    refine ⟨?_, ?_⟩
    · show s.handler.retry = min ((0 : Nat) : Int) (max confRetry 0)
      omega
    · simpa [setsFail_iff] using h.failedAt
  | disconnected =>
    by_cases hlt : s.handler.retry < confRetry
    · have hfail : setsFail confRetry s.handler .disconnected = false := by
        rw [Bool.eq_false_iff, Ne, setsFail_iff]
        exact fun hle => absurd hlt (Int.not_lt.2 hle.2)
      refine ⟨?_, ?_⟩
      · simp only [mqttEventHandler, if_pos hlt, nextSince]
        omega
      · simpa [hfail] using h.failedAt
    · have hfail : setsFail confRetry s.handler .disconnected = true := setsFail_iff.2 ⟨rfl, Int.not_lt.1 hlt⟩
      refine ⟨?_, ?_⟩
      · simp only [mqttEventHandler, if_neg hlt, nextSince]
        omega
      · simp only [hfail, if_true, List.forall_mem_append, List.forall_mem_singleton, nextSince]
        refine ⟨h.failedAt, ?_⟩
        omega
  | subscribed | unsubscribed | published | error | other =>
    refine ⟨hretry, ?_⟩
    simpa [setsFail_iff] using h.failedAt

theorem Counted.step {l : ConnEvent} (h : s.Counted confRetry) (hguard : s.Restored l) (hstep : s.step confRetry l = some t) :
    t.Counted confRetry := by
  cases l with
  | connect =>
    rw [Conn.step, Option.ite_none_right_eq_some] at hstep
    cases hstep.2
    have hzero : s.handler.retry = 0 := hguard
    refine ⟨?_, h.failedAt⟩
    show s.handler.retry = min ((0 : Nat) : Int) (max confRetry 0)
    omega
  | delete =>
    rw [Conn.step, Option.ite_none_right_eq_some] at hstep
    cases hstep.2
    exact h.of_eq rfl rfl rfl
  | go ok =>
    obtain ⟨hretry, hsince, hfailed⟩ := go_keeps hstep
    exact h.of_eq hretry hsince hfailed
  | event e => exact h.event hguard hstep
  | receive task =>
    rw [Conn.step, Option.ite_none_right_eq_some] at hstep
    cases hstep.2
    exact h.of_eq rfl rfl rfl

theorem Init.counted (h : s.Init) : s.Counted confRetry := by
  refine ⟨?_, ?_⟩
  · rw [h.retry, h.since]
    omega
  · simp [h.failedAt]

/-! ### Where the counter is not zero -/

/-- Where the counter is ahead of the disconnections and the connection is lost again and again, the handler gives up too early. -/
theorem fails_early (hgroup : s.handle .group ≠ none) (hahead : s.since < s.handler.retry) (hle : s.handler.retry ≤ confRetry) :
    ∃ ls t, System.runSteps (Conn.step confRetry) s ls = some t ∧ ∃ n ∈ t.failedAt, n ≤ confRetry := by
  obtain ⟨k, hk⟩ := Int.eq_ofNat_of_zero_le (Int.sub_nonneg.2 hle)
  induction k generalizing s with
  | zero =>
    have hfail : setsFail confRetry s.handler .disconnected = true := setsFail_iff.2 ⟨rfl, by omega⟩
    refine ⟨[.event .disconnected], _, by rw [System.runSteps, Conn.step, if_neg hgroup]; rfl, s.since + 1, ?_, by omega⟩
    simp [hfail, nextSince]
  | succ k ih =>
    have hlt : s.handler.retry < confRetry := by omega
    have hretry : (mqttEventHandler confRetry s.handler .disconnected).retry = s.handler.retry + 1 := by
      rw [mqttEventHandler, if_pos hlt]
    obtain ⟨ls, t, hrun, hearly⟩ := ih
      (s := { s with
        handler := mqttEventHandler confRetry s.handler .disconnected
        since := s.since + 1
        failedAt := if setsFail confRetry s.handler .disconnected then s.failedAt ++ [s.since + 1] else s.failedAt })
      hgroup (by dsimp only; omega) (by dsimp only; omega) (by dsimp only; omega)
    refine ⟨.event .disconnected :: ls, t, ?_, hearly⟩
    rw [System.runSteps, Conn.step, if_neg hgroup]
    exact hrun

theorem Counted.fails_early {l : ConnEvent} (h : s.Counted confRetry) (hl : ¬ s.Restored l) (hstep : s.step confRetry l = some t) :
    ∃ ls u, System.runSteps (Conn.step confRetry) t ls = some u ∧ ∃ n ∈ u.failedAt, n ≤ confRetry := by
  have hretry := h.retry
  cases l with
  | connect =>
    have hne : s.handler.retry ≠ 0 := hl
    rw [Conn.step, Option.ite_none_right_eq_some] at hstep
    cases hstep.2
    -- the client is started before the first event
    obtain ⟨v, hv, hgroup, hsame, hsince⟩ : ∃ v, System.runSteps (Conn.step confRetry)
        { s with pc := .createQueue, result := none, created := [], since := 0 } (List.replicate 7 (.go true)) = some v ∧
        v.handle .group ≠ none ∧ v.handler.retry = s.handler.retry ∧ v.since = 0 :=
      ⟨_, rfl, by simp [Conn.createAny, Conn.create], rfl, rfl⟩
    have hfails : ∃ ls u, System.runSteps (Conn.step confRetry) v ls = some u ∧ ∃ n ∈ u.failedAt, n ≤ confRetry :=
      Conn.fails_early hgroup (by omega) (by omega)
    obtain ⟨ls, u, hrun, hearly⟩ := hfails
    refine ⟨List.replicate 7 (.go true) ++ ls, u, ?_, hearly⟩
    rw [System.runSteps_append, hv]
    exact hrun
  | event e =>
    cases e with
    | connected =>
      have hne : s.handler.retry ≠ 0 := hl
      rw [Conn.step, Option.ite_none_left_eq_some] at hstep
      obtain ⟨hgroup, hstep⟩ := hstep
      cases hstep
      refine Conn.fails_early hgroup ?_ ?_
      · show ((0 : Nat) : Int) < s.handler.retry
        omega
      · show s.handler.retry ≤ confRetry
        omega
    | disconnected | subscribed | unsubscribed | published | error | other => exact absurd trivial hl
  | delete | go _ | receive _ => exact absurd trivial hl

end Conn

/-- **In every run in which each call and each connection finds the counter at zero, the handler gives up only after more than `CONF_LIB_MQTT_RETRY` disconnections. After a call or a connection that does not, it can give up before.** -/
theorem gives_up_after_retries (hs : (connections confRetry).ReachableUnder Conn.Restored s) :
    (∀ n ∈ s.failedAt, confRetry < n) ∧ ∀ l t, ¬ s.Restored l → s.step confRetry l = some t →
      ∃ ls u, System.runSteps (Conn.step confRetry) t ls = some u ∧ ∃ n ∈ u.failedAt, n ≤ confRetry := by
  have h : s.Counted confRetry := hs.invariant (fun _ => Conn.Init.counted) fun _ _ _ h hguard hstep => h.step hguard hstep
  exact ⟨h.failedAt, fun _ _ => h.fails_early⟩

/-! ### Two calls -/

/-- A call of `pk_mqtt_connect` up to where it waits. -/
def connecting : List ConnEvent := .connect :: List.replicate 7 (.go true)

/-- No attempt succeeds, and the call gives up after the second one. -/
def givingUp : List ConnEvent := connecting ++ [.event .disconnected, .event .disconnected, .go true, .go true, .go true]

theorem gives_up_after_retries_once : ∃ s, (connections 1).ReachableUnder Conn.Restored s ∧ s.result = some false ∧
    s.failedAt = [2] ∧ ∀ n ∈ s.failedAt, (1 : Int) < n := by
  obtain ⟨s, hrun, hresult, hfailed⟩ : ∃ s, System.runSteps (System.guarded Conn.Restored (Conn.step 1)) unconnected givingUp =
      some s ∧ s.result = some false ∧ s.failedAt = [2] := ⟨_, rfl, rfl, rfl⟩
  have hs : (connections 1).ReachableUnder Conn.Restored s := System.reachableUnder_runSteps _ (.init unconnected_init) hrun
  exact ⟨s, hs, hresult, hfailed, (gives_up_after_retries hs).1⟩

/-- The next call gives up after its first attempt. -/
theorem not_gives_up_after_retries : ¬ ∀ confRetry s, (connections confRetry).Reachable s → ∀ n ∈ s.failedAt, confRetry < n := by
  intro h
  obtain ⟨s, hrun, hfailed⟩ : ∃ s, System.runSteps (Conn.step 1) unconnected
      (givingUp ++ connecting ++ [.event .disconnected]) = some s ∧ s.failedAt = [2, 1] := ⟨_, rfl, rfl⟩
  have hlt := h 1 s (System.reachable_runSteps _ (.init unconnected_init) hrun) 1 (by simp [hfailed])
  omega

end Vedruino.Mqtt
