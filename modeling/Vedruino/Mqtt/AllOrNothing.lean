import Vedruino.Mqtt.Connect

/-!
# Failed calls of `pk_mqtt_connect`

A call of `pk_mqtt_connect` that fails after its queue returns at once and leaves what it has created, except where it has waited for the connection: then `pk_mqtt_delete` deletes everything. The next call puts new handles in the globals, so nothing can delete what was left, and the callback task that was left waits at a queue that nobody fills.
-/

namespace Vedruino.Mqtt

variable {confRetry : Int} {s t : Conn} {l : ConnEvent}

namespace Conn

/-- The calls of the application: `pk_mqtt_delete` after a success, and `pk_mqtt_connect` otherwise. -/
def Called (s : Conn) : ConnEvent → Prop
  | .connect => s.result ≠ some true
  | .delete => s.result = some true
  | _ => True

/-- The step is not one with which `pk_mqtt_connect` fails and leaves something: after the queue everything is created, registered and started, and what `pk_mqtt_connect` deletes can be destroyed. -/
def Frees (s : Conn) : ConnEvent → Prop
  | .go ok => s.pc ∈ [.createTask, .clientInit, .registerEvent, .start, .destroy true] → ok = true
  | _ => True

instance (s : Conn) : DecidablePred s.Called
  | .connect => inferInstanceAs (Decidable (_ ≠ _))
  | .delete => inferInstanceAs (Decidable (_ = _))
  | .go _ | .event _ | .receive _ => isTrue trivial

instance (s : Conn) : DecidablePred s.Frees
  | .go _ => inferInstanceAs (Decidable (_ → _))
  | .connect | .delete | .event _ | .receive _ => isTrue trivial

def Guard (s : Conn) (l : ConnEvent) : Prop := s.Called l ∧ s.Frees l

instance (s : Conn) : DecidablePred s.Guard := fun _ => inferInstanceAs (Decidable (_ ∧ _))

/-- A failed call leaves nothing, and the only callback task serves the queue that the handler fills. -/
structure AllOrNothing (s : Conn) : Prop where
  failed : s.pc = .idle → s.result = some false → ∀ o ∈ s.created, o ∉ s.alive
  unique : ∀ t u, (.task, t) ∈ s.alive → (.task, u) ∈ s.alive → t = u
  serves : ∀ t, (.task, t) ∈ s.alive → s.waitsAt t = s.handle .queue ∧ ∃ q, s.handle .queue = some q ∧ (.queue, q) ∈ s.alive

/-- What `pk_mqtt_connect` is still to create, first the next one; between the calls nothing, where it has succeeded. -/
def pending (result : Option Bool) : ConnPc → List Kind
  | .idle => if result = some true then [] else [.queue, .task, .mutex, .group, .client]
  | .createQueue => [.queue, .task, .mutex, .group, .client]
  | .createTask => [.task, .mutex, .group, .client]
  | .createMutex => [.mutex, .group, .client]
  | .createGroup => [.group, .client]
  | .clientInit => [.client]
  | _ => []

/-- The globals name what the call has created, and nothing else is alive, other than a client that an earlier `pk_mqtt_delete` could not destroy. -/
structure Inv (s : Conn) : Prop where
  pending : ∀ k ∈ pending s.result s.pc, s.handle k = none
  checked : ∀ k ∈ [Kind.queue, .task, .client], k ∉ Conn.pending s.result s.pc → s.handle k ≠ none
  fresh : ∀ o ∈ s.alive, o.2 < s.made
  named : ∀ o ∈ s.alive, o.1 ≠ .client ∨ o ∈ s.created ∧ (s.pc = .idle → s.result ≠ none) → s.handle o.1 = some o.2
  current : ∀ k i, s.handle k = some i → (k, i) ∈ s.alive ∧ (k, i) ∈ s.created
  serves : ∀ t, s.handle .task = some t → s.waitsAt t = s.handle .queue ∧ s.handle .queue ≠ none

theorem Inv.allOrNothing (h : s.Inv) : s.AllOrNothing where
  failed hpc hresult o ho halive := by
    have hnone : s.handle o.1 = none := by
      apply h.pending
      rw [hpc, hresult]
      cases o.1 <;> simp [Conn.pending]
    rw [h.named o halive (.inr ⟨ho, fun _ => by simp [hresult]⟩)] at hnone
    cases hnone
  unique t u ht hu := by
    have htask := h.named _ ht (.inl Kind.noConfusion)
    rw [h.named _ hu (.inl Kind.noConfusion)] at htask
    exact (Option.some.inj htask).symm
  serves t ht := by
    obtain ⟨hwaits, hqueue⟩ := h.serves t (h.named _ ht (.inl Kind.noConfusion))
    obtain ⟨q, hq⟩ := Option.ne_none_iff_exists'.1 hqueue
    exact ⟨hwaits, q, hq, (h.current _ q hq).1⟩

/-! ### The steps -/

theorem pending_nodup (result : Option Bool) (pc : ConnPc) : (Conn.pending result pc).Nodup := by
  by_cases hresult : result = some true
  · cases pc <;> simp [Conn.pending, hresult]
  · cases pc <;> simp [Conn.pending, hresult]

theorem Inv.next (h : s.Inv) {k : Kind} {pc : ConnPc} (hk : Conn.pending s.result s.pc = k :: Conn.pending s.result pc) :
    s.handle k = none ∧ ∀ j ∈ Conn.pending s.result pc, j ≠ k ∧ s.handle j = none := by
  have hpending := h.pending
  rw [hk, List.forall_mem_cons] at hpending
  have hnodup := pending_nodup s.result s.pc
  rw [hk, List.nodup_cons] at hnodup
  refine ⟨hpending.1, fun j hj => ⟨fun heq => ?_, hpending.2 j hj⟩⟩
  rw [heq] at hj
  exact hnodup.1 hj

theorem Inv.create {k : Kind} {pc : ConnPc} {w : Nat → Option Nat} (h : s.Inv)
    (hk : Conn.pending s.result s.pc = k :: Conn.pending s.result pc) (hidle : s.pc ≠ .idle)
    (hserves : ∀ t, Function.update s.handle k (some s.made) .task = some t →
      w t = Function.update s.handle k (some s.made) .queue ∧ Function.update s.handle k (some s.made) .queue ≠ none) :
    Conn.Inv { s.create k pc with waitsAt := w } where
  checked j hj hmem := by
    show Function.update s.handle k (some s.made) j ≠ none
    by_cases heq : j = k
    · rw [heq, Function.update_self]
      exact Option.some_ne_none _
    · rw [Function.update_of_ne heq]
      refine h.checked j hj ?_
      rw [hk, List.mem_cons, not_or]
      exact ⟨heq, hmem⟩
  pending j hj := by
    obtain ⟨hne, hj⟩ := (h.next hk).2 j hj
    exact (Function.update_of_ne hne _ _).trans hj
  fresh o ho := by
    rcases List.mem_append.1 ho with ho | ho
    · exact Nat.lt_succ_of_lt (h.fresh o ho)
    · rw [List.mem_singleton.1 ho]
      exact Nat.lt_succ_self _
  named o ho hname := by
    rcases List.mem_append.1 ho with ho | ho
    · have hold : s.handle o.1 = some o.2 := by
        refine h.named o ho (hname.imp_right fun hc => ⟨?_, fun hpc => absurd hpc hidle⟩)
        refine (List.mem_append.1 hc.1).resolve_right fun hnew => ?_
        have hlt := h.fresh o ho
        rw [List.mem_singleton.1 hnew] at hlt
        exact lt_irrefl _ hlt
      have hne : o.1 ≠ k := by
        intro heq
        rw [heq, (h.next hk).1] at hold
        cases hold
      exact (Function.update_of_ne hne _ _).trans hold
    · rw [List.mem_singleton.1 ho]
      exact Function.update_self _ _ _
  current j i hj := by
    have hhandle : Function.update s.handle k (some s.made) j = some i := hj
    by_cases heq : j = k
    · subst heq
      rw [Function.update_self] at hhandle
      cases hhandle
      exact ⟨List.mem_append_right _ (List.mem_singleton_self _), List.mem_append_right _ (List.mem_singleton_self _)⟩
    · rw [Function.update_of_ne heq] at hhandle
      obtain ⟨halive, hcreated⟩ := h.current j i hhandle
      exact ⟨List.mem_append_left _ halive, List.mem_append_left _ hcreated⟩
  serves := hserves

/-- What the call does not create or delete. -/
theorem Inv.move {pc : ConnPc} {result : Option Bool} (h : s.Inv) (hpending : ∀ k ∈ Conn.pending result pc, s.handle k = none)
    (hchecked : ∀ k ∈ [Kind.queue, .task, .client], k ∉ Conn.pending result pc → k ∉ Conn.pending s.result s.pc)
    (hresult : s.pc = .idle → s.result ≠ none) : Conn.Inv { s with pc, result } where
  pending := hpending
  checked k hk hmem := h.checked k hk (hchecked k hk hmem)
  fresh := h.fresh
  named o ho hname := h.named o ho (hname.imp_right fun hc => ⟨hc.1, hresult⟩)
  current := h.current
  serves := h.serves

/-- After the last creation there is nothing left to create. -/
theorem Inv.moveOn {pc : ConnPc} {result : Option Bool} (h : s.Inv) (hnothing : Conn.pending s.result s.pc = [])
    (hidle : s.pc ≠ .idle) (hstill : Conn.pending result pc = []) : Conn.Inv { s with pc, result } := by
  refine h.move ?_ ?_ fun hpc => absurd hpc hidle
  · rw [hstill]
    exact fun k hk => absurd hk List.not_mem_nil
  · rw [hnothing]
    exact fun k _ _ => List.not_mem_nil

theorem Inv.handled {handler : HandlerState} {since : Nat} {failedAt : List Nat} (h : s.Inv) :
    Conn.Inv { s with handler, since, failedAt } :=
  ⟨h.pending, h.checked, h.fresh, h.named, h.current, h.serves⟩

theorem Inv.free {destroyed : Bool} {result : Option Bool} (h : s.Inv) (hidle : s.pc ≠ .idle)
    (hpending : ∀ k, k ∈ Conn.pending result .idle) (hclient : destroyed = true ∨ result = none) :
    Conn.Inv { s.free destroyed with pc := .idle, result } where
  pending _ _ := rfl
  checked k _ hmem := absurd (hpending k) hmem
  fresh o ho := h.fresh o (List.mem_of_mem_filter ho)
  named o ho hname := by
    obtain ⟨ho, hkept⟩ := List.mem_filter.1 ho
    have hhandle := h.named o ho (hname.imp_right fun hc => ⟨hc.1, fun hpc => absurd hpc hidle⟩)
    have hstays : o.1 = .client ∧ destroyed = false := by simpa [hhandle] using hkept
    rcases hname with hne | hcreated
    · exact absurd hstays.1 hne
    · rcases hclient with hdestroyed | hnone
      · rw [hdestroyed] at hstays
        cases hstays.2
      · exact absurd hnone (hcreated.2 rfl)
  current _ _ hk := nomatch hk
  serves _ ht := nomatch ht

theorem Inv.createAny {ok : Bool} {k : Kind} {pc : ConnPc} (h : s.Inv)
    (hk : Conn.pending s.result s.pc = k :: Conn.pending s.result pc) (hidle : s.pc ≠ .idle)
    (hchecked : ok = true ∧ k ≠ .queue ∧ k ≠ .task ∨ k ∉ [Kind.queue, .task, .client]) : (s.createAny ok k pc).Inv := by
  obtain ⟨hnone, hpending⟩ := h.next hk
  have hkind : k ≠ .queue ∧ k ≠ .task := by
    refine hchecked.elim And.right fun hmem => ⟨?_, ?_⟩
    · rintro rfl
      simp at hmem
    · rintro rfl
      simp at hmem
  cases ok with
  | false =>
    have hsame : Function.update s.handle k none = s.handle := by
      rw [← hnone, Function.update_eq_self]
    have hmove : Conn.Inv { s with pc, result := s.result } := by
      refine h.move (fun j hj => (hpending j hj).2) (fun j hj hmem => ?_) fun hpc => absurd hpc hidle
      rw [hk, List.mem_cons, not_or]
      refine ⟨?_, hmem⟩
      rintro rfl
      exact hchecked.elim (fun hok => nomatch hok.1) fun hnot => hnot hj
    simpa [Conn.createAny, hsame] using hmove
  | true =>
    refine h.create (w := s.waitsAt) hk hidle ?_
    rw [Function.update_of_ne hkind.2.symm, Function.update_of_ne hkind.1.symm]
    exact h.serves

/-- Without a queue the call fails, and nothing has been created. -/
theorem Inv.createQueue {ok : Bool} (h : s.Inv) (hpc : s.pc = .createQueue) (hstep : s.go ok = some t) : t.Inv := by
  simp only [Conn.go, hpc] at hstep
  have hk : Conn.pending s.result s.pc = .queue :: Conn.pending s.result .createTask := by rw [hpc]; rfl
  obtain ⟨hnone, hpending⟩ := h.next hk
  cases ok with
  | true =>
    cases hstep
    refine h.create (w := s.waitsAt) hk (by simp [hpc]) fun t ht => ?_
    rw [Function.update_of_ne (by simp), (hpending .task (by simp [Conn.pending])).2] at ht
    cases ht
  | false =>
    cases hstep
    have hsame : Function.update s.handle .queue none = s.handle := by
      rw [← hnone, Function.update_eq_self]
    have hmove : Conn.Inv { s with pc := .idle, result := some false } := by
      have hsame : Conn.pending (some false) .idle = Conn.pending s.result s.pc := by rw [hpc]; rfl
      exact h.move (by rw [hsame]; exact h.pending) (by rw [hsame]; exact fun _ _ => id) (by simp [hpc])
    simpa [Conn.ret, hsame] using hmove

/-- The task starts with the queue that has just been created. -/
theorem Inv.createTask (h : s.Inv) (hpc : s.pc = .createTask) (hstep : s.go true = some t) : t.Inv := by
  simp only [Conn.go, hpc, if_true] at hstep
  cases hstep
  have hk : Conn.pending s.result s.pc = .task :: Conn.pending s.result .createMutex := by rw [hpc]; rfl
  refine h.create hk (by simp [hpc]) fun t ht => ?_
  rw [Function.update_self] at ht
  cases ht
  rw [Function.update_self, Function.update_of_ne (by simp)]
  exact ⟨rfl, h.checked .queue (by simp) (by simp [hpc, Conn.pending])⟩

theorem Inv.waitBits {ok : Bool} (h : s.Inv) (hpc : s.pc = .waitBits) (hstep : s.go ok = some t) : t.Inv := by
  simp only [Conn.go, hpc] at hstep
  have hnothing : Conn.pending s.result s.pc = [] := by rw [hpc]; rfl
  have hidle : s.pc ≠ .idle := by simp [hpc]
  split at hstep
  · cases hstep
    exact h.moveOn hnothing hidle rfl
  · split at hstep
    · cases hstep
      exact h.moveOn hnothing hidle rfl
    · rw [Option.ite_none_right_eq_some] at hstep
      cases hstep.2
      exact h.moveOn hnothing hidle rfl

theorem Inv.destroy {ok failed : Bool} (h : s.Inv) (hpc : s.pc = .destroy failed) (hok : failed = true → ok = true)
    (hstep : s.go ok = some t) : t.Inv := by
  simp only [Conn.go, hpc] at hstep
  have hidle : s.pc ≠ .idle := by simp [hpc]
  split at hstep
  · cases hstep
    exact h.moveOn (by rw [hpc]; rfl) hidle rfl
  · cases hstep
    cases failed with
    | true => exact h.free hidle (fun k => by cases k <;> simp [Conn.pending]) (.inl (hok rfl))
    | false => exact h.free hidle (fun k => by cases k <;> simp [Conn.pending]) (.inr rfl)

theorem Inv.go {ok : Bool} (h : s.Inv) (hfrees : s.Frees (.go ok)) (hstep : s.go ok = some t) : t.Inv := by
  cases hpc : s.pc with
  | idle | dead =>
    simp only [Conn.go, hpc] at hstep
    cases hstep
  | createQueue => exact h.createQueue hpc hstep
  | createTask =>
    obtain rfl : ok = true := hfrees (by simp [hpc])
    exact h.createTask hpc hstep
  | createMutex =>
    simp only [Conn.go, hpc] at hstep
    cases hstep
    exact h.createAny (by rw [hpc]; rfl) (by simp [hpc]) (.inr (by simp))
  | createGroup =>
    simp only [Conn.go, hpc] at hstep
    cases hstep
    exact (h.createAny (by rw [hpc]; rfl) (by simp [hpc]) (.inr (by simp))).handled
  | clientInit =>
    obtain rfl : ok = true := hfrees (by simp [hpc])
    simp only [Conn.go, hpc, if_true] at hstep
    cases hstep
    show (s.createAny true .client .registerEvent).Inv
    exact h.createAny (by rw [hpc]; rfl) (by simp [hpc]) (.inl (by simp))
  | registerEvent | start =>
    obtain rfl : ok = true := hfrees (by simp [hpc])
    simp only [Conn.go, hpc, if_true] at hstep
    cases hstep
    exact h.moveOn (by rw [hpc]; rfl) (by simp [hpc]) rfl
  | waitBits => exact h.waitBits hpc hstep
  | disconnect failed =>
    simp only [Conn.go, hpc] at hstep
    cases hstep
    exact h.moveOn (by rw [hpc]; rfl) (by simp [hpc]) rfl
  | destroy failed =>
    refine h.destroy hpc (fun hfailed => hfrees ?_) hstep
    simp [hpc, hfailed]

theorem Inv.receive {task : Nat} (h : s.Inv) :
    Conn.Inv { s with waitsAt := Function.update s.waitsAt task (s.handle .queue) } := by
  refine ⟨h.pending, h.checked, h.fresh, h.named, h.current, fun t ht => ?_⟩
  obtain ⟨hwaits, hqueue⟩ := h.serves t ht
  refine ⟨?_, hqueue⟩
  by_cases heq : t = task
  · rw [heq]
    exact Function.update_self _ _ _
  · exact (Function.update_of_ne heq _ _).trans hwaits

theorem Inv.step (h : s.Inv) (hcalled : s.Called l) (hfrees : s.Frees l) (hstep : s.step confRetry l = some t) : t.Inv := by
  cases l with
  | connect =>
    rw [Conn.step, Option.ite_none_right_eq_some] at hstep
    obtain ⟨hpc, hstep⟩ := hstep
    cases hstep
    have hnone : ∀ k, s.handle k = none := by
      intro k
      refine h.pending k ?_
      rw [hpc, Conn.pending, if_neg hcalled]
      cases k <;> simp
    refine ⟨fun k _ => hnone k, fun k _ hmem => ?_, h.fresh, ?_, fun k i hk => ?_, h.serves⟩
    · cases k <;> simp [Conn.pending] at hmem
    · exact fun o ho hname => h.named o ho (.inl (hname.resolve_right fun hc => List.not_mem_nil hc.1))
    · rw [hnone k] at hk
      cases hk
  | delete =>
    have hresult : s.result = some true := hcalled
    rw [Conn.step, Option.ite_none_right_eq_some] at hstep
    obtain ⟨hpc, hstep⟩ := hstep
    cases hstep
    exact h.move (by simp [Conn.pending]) (by simp [hpc, hresult, Conn.pending]) (by simp [hresult])
  | go ok => exact h.go hfrees hstep
  | event e =>
    rw [Conn.step, Option.ite_none_left_eq_some] at hstep
    cases hstep.2
    exact h.handled
  | receive task =>
    rw [Conn.step, Option.ite_none_right_eq_some] at hstep
    cases hstep.2
    exact h.receive

theorem Init.inv (h : s.Init) : s.Inv where
  pending k _ := h.handle k
  checked k _ hmem := by
    rw [h.pc, h.result] at hmem
    cases k <;> simp [Conn.pending] at hmem
  fresh o ho := by
    rw [h.alive] at ho
    cases ho
  named o ho := by
    rw [h.alive] at ho
    cases ho
  current k i hk := by
    rw [h.handle] at hk
    cases hk
  serves t ht := by
    rw [h.handle] at ht
    cases ht

/-! ### The steps outside the condition -/

theorem not_allOrNothing_of_left {o : Kind × Nat} (hpc : s.pc = .idle) (hresult : s.result = some false) (ho : o ∈ s.created)
    (halive : o ∈ s.alive) : ¬ s.AllOrNothing := fun h => h.failed hpc hresult o ho halive

theorem Inv.left (h : s.Inv) {k : Kind} (hk : k ∈ [Kind.queue, .task, .client]) (hmem : k ∉ Conn.pending s.result s.pc) :
    ∃ i, s.handle k = some i ∧ (k, i) ∈ s.alive ∧ (k, i) ∈ s.created := by
  obtain ⟨i, hi⟩ := Option.ne_none_iff_exists'.1 (h.checked k hk hmem)
  exact ⟨i, hi, h.current k i hi⟩

/-- Where `pk_mqtt_connect` returns at once. -/
theorem go_fails (hmem : s.pc ∈ [.createTask, .clientInit, .registerEvent, .start]) (hgo : s.go false = some t) :
    t.result = some false ∧ t.alive = s.alive ∧ t.created = s.created := by
  simp only [List.mem_cons, List.not_mem_nil, or_false] at hmem
  rcases hmem with hs | hs | hs | hs
  all_goals
    simp only [Conn.go, hs] at hgo
    cases hgo
    exact ⟨rfl, rfl, rfl⟩

theorem Inv.leaves (h : s.Inv) (hfails : ¬ s.Frees l) (hstep : s.step confRetry l = some t) (hpc : t.pc = .idle) :
    ¬ t.AllOrNothing := by
  cases l with
  | go ok =>
    obtain ⟨hmem, hok⟩ := Classical.not_imp.1 hfails
    rw [Bool.not_eq_true] at hok
    subst hok
    have hgo : s.go false = some t := hstep
    rcases List.mem_append.1 (show s.pc ∈ [.createTask, .clientInit, .registerEvent, .start] ++ [.destroy true] from hmem)
      with hearly | hlate
    · -- the queue, which comes first, is left
      have hqueue : Kind.queue ∉ Conn.pending s.result s.pc := by
        simp only [List.mem_cons, List.not_mem_nil, or_false] at hearly
        rcases hearly with hs | hs | hs | hs <;> simp [hs, Conn.pending]
      obtain ⟨q, -, halive, hcreated⟩ := h.left (k := .queue) (by simp) hqueue
      obtain ⟨hresult, halive', hcreated'⟩ := go_fails hearly hgo
      exact not_allOrNothing_of_left hpc hresult (by rwa [hcreated']) (by rwa [halive'])
    · -- the client that could not be destroyed is left
      have hs : s.pc = .destroy true := List.mem_singleton.1 hlate
      obtain ⟨c, -, halive, hcreated⟩ := h.left (k := .client) (by simp) (by simp [hs, Conn.pending])
      simp only [Conn.go, hs] at hgo
      split at hgo
      · cases hgo
        cases hpc
      · cases hgo
        exact not_allOrNothing_of_left rfl rfl hcreated (List.mem_filter.2 ⟨halive, by simp⟩)
  | connect | delete | event _ | receive _ => exact absurd trivial hfails

end Conn

/-- **In every run in which no call of `pk_mqtt_connect` fails after its queue other than by giving up, a failed call leaves nothing, and there is at most one callback task, which serves the queue of the handler. A call that fails otherwise leaves something.** -/
theorem connect_allOrNothing (hs : (connections confRetry).ReachableUnder Conn.Guard s) :
    s.AllOrNothing ∧ ∀ l t, ¬ s.Frees l → s.step confRetry l = some t → t.pc = .idle → ¬ t.AllOrNothing := by
  have h : s.Inv := hs.invariant (fun _ => Conn.Init.inv) fun _ _ _ h hguard hstep => h.step hguard.1 hguard.2 hstep
  exact ⟨h.allOrNothing, fun _ _ => h.leaves⟩

/-! ### Two failed calls -/

/-- No queue in the first call, and no connection in the second. -/
theorem connect_allOrNothing_givenUp : ∃ s, (connections 0).ReachableUnder Conn.Guard s ∧ s.result = some false ∧
    s.created.length = 5 ∧ s.AllOrNothing := by
  obtain ⟨s, hrun, hresult, hcreated⟩ : ∃ s, System.runSteps (System.guarded Conn.Guard (Conn.step 0)) unconnected
      ([.connect, .go false, .connect] ++ List.replicate 7 (.go true) ++ [.event .disconnected] ++ List.replicate 3 (.go true)) =
      some s ∧ s.result = some false ∧ s.created.length = 5 := ⟨_, rfl, rfl, rfl⟩
  have hs : (connections 0).ReachableUnder Conn.Guard s := System.reachableUnder_runSteps _ (.init unconnected_init) hrun
  exact ⟨s, hs, hresult, hcreated, (connect_allOrNothing hs).1⟩

/-- `esp_mqtt_client_init` fails in the first call, and the second one creates a task beside the one that was left. -/
theorem not_connect_allOrNothing : ¬ ∀ confRetry s, (connections confRetry).ReachableUnder Conn.Called s → s.AllOrNothing := by
  intro h
  obtain ⟨s, hrun, hold, hnew⟩ : ∃ s, System.runSteps (System.guarded Conn.Called (Conn.step 0)) unconnected
      (.connect :: List.replicate 4 (.go true) ++ [.go false, .connect, .go true, .go true]) = some s ∧
      (.task, 1) ∈ s.alive ∧ (.task, 5) ∈ s.alive := ⟨_, rfl, by decide, by decide⟩
  have hs := h 0 s (System.reachableUnder_runSteps _ (.init unconnected_init) hrun)
  cases hs.unique 1 5 hold hnew

end Vedruino.Mqtt
